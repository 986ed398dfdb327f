import QdayNode.Consensus.Chain

/-!
# What an update reports

`ApplyUpdate` hands out the records of a block after the accumulator has written
positions and proofs into them, and the nodes of the forest on the paths of their
leaves.  A record of a spent output is the element as the transaction presents it;
for an output of the same block nobody has compared its proof with anything.
-/
namespace QdayNode
open ByteString MerkleForest Word64 Outcome

variable {L : List Hash256} {out : AppliedLeaves} {l l' : ElementLeaf} {i k : ℕ} {txns : List V2Transaction}
  {ms : MidState} {acc' : ElementAccumulator}

section Written

variable {c : Crypto} {updated added leaves : List ElementLeaf}

theorem AppliedTo.mem_updated (h : AppliedTo c L updated added out) (hlen : ∀ l ∈ updated, l.merkleProof.length < 64) :
    l' ∈ out.eau.updated.flatten ↔ ∃ l ∈ updated, l' = l.withProof (pathAfter c L updated added l.leafIndex) := by
  simp only [h.updatedLeaves,List.mem_flatten,List.mem_map,List.mem_range]
  constructor
  · rintro ⟨_,⟨k,-,rfl⟩,hmem⟩
    obtain ⟨l,hl,rfl⟩ := List.mem_map.mp hmem
    exact ⟨l,(mem_groupAt.mp hl).1,rfl⟩
  · rintro ⟨l,hl,rfl⟩
    exact ⟨_,⟨_,hlen l hl,rfl⟩,List.mem_map_of_mem (mem_groupAt.mpr ⟨hl,rfl⟩)⟩

theorem AppliedTo.mem_added (h : AppliedTo c L updated added out) :
    l' ∈ out.added ↔ ∃ (j : ℕ) (l : ElementLeaf), added[j]? = some l ∧
      l' = (l.withIndex (UInt64.ofNat (L.length + j))).extend (pathAfter c L updated added (L.length + j)) := by
  rw [h.addedLeaves,List.mem_mapIdx]
  constructor
  · rintro ⟨j,hj,rfl⟩
    exact ⟨j,_,List.getElem?_eq_getElem hj,rfl⟩
  · rintro ⟨j,l,hj,rfl⟩
    obtain ⟨hlt,rfl⟩ := List.getElem?_eq_some_iff.mp hj
    exact ⟨j,hlt,rfl⟩

/-- The leaf `l` as the accumulator hands it back. -/
inductive WrittenBack (c : Crypto) (L : List Hash256) (leaves : List ElementLeaf) (l : ElementLeaf) : ElementLeaf → Prop
  | updated (hassigned : l.stateElement.leafIndex ≠ unassignedLeafIndex) :
      WrittenBack c L leaves l
        (l.withProof (pathAfter c L (updatedLeaves leaves) (addedLeaves leaves) l.leafIndex))
  | added (hnew : l.stateElement.leafIndex = unassignedLeafIndex) (j : ℕ) (hj : (addedLeaves leaves)[j]? = some l) :
      WrittenBack c L leaves l ((l.withIndex (UInt64.ofNat (L.length + j))).extend
        (pathAfter c L (updatedLeaves leaves) (addedLeaves leaves) (L.length + j)))

def Numbered (leaves : List ElementLeaf) : Prop := ∀ (i : ℕ) (l : ElementLeaf), leaves[i]? = some l → l.ref = i

theorem Numbered.eq_of_ref (h : Numbered leaves) {m : ElementLeaf} (hl : leaves[i]? = some l) (hm : m ∈ leaves)
    (href : m.ref = i) : m = l := by
  obtain ⟨k,hk⟩ := List.mem_iff_getElem?.mp hm
  obtain rfl : k = i := (h k m hk).symm.trans href
  exact Option.some.inj (hk.symm.trans hl)

theorem readBack_written (h : AppliedTo c L (updatedLeaves leaves) (addedLeaves leaves) out) (hnum : Numbered leaves)
    (hlen : ∀ l ∈ updatedLeaves leaves, l.merkleProof.length < 64) (hl : leaves[i]? = some l)
    (se : StateElement) :
    ∃ l', WrittenBack c L leaves l l' ∧
      BlockDiffs.readBack (out.eau.updated.flatten ++ out.added) i se = l'.stateElement := by
  have hmem := List.mem_of_getElem? hl
  have href := hnum i l hl
  -- some leaf comes back under the pointer, and every one that does is the leaf itself
  have hsome : ∃ l' ∈ out.eau.updated.flatten ++ out.added, l'.ref = i := by
    by_cases hassigned : l.stateElement.leafIndex = unassignedLeafIndex
    · have hadded : l ∈ addedLeaves leaves := List.mem_filter.mpr ⟨hmem,decide_eq_true hassigned⟩
      obtain ⟨j,hj⟩ := List.mem_iff_getElem?.mp hadded
      exact ⟨_,List.mem_append_right _ (h.mem_added.mpr ⟨j,l,hj,rfl⟩),href⟩
    · have hupdated : l ∈ updatedLeaves leaves := List.mem_filter.mpr ⟨hmem,decide_eq_true hassigned⟩
      exact ⟨_,List.mem_append_left _ ((h.mem_updated hlen).mpr ⟨l,hupdated,rfl⟩),href⟩
  have hback : ∀ l' ∈ out.eau.updated.flatten ++ out.added, l'.ref = i → WrittenBack c L leaves l l' := by
    intro l' hl' hi
    rcases List.mem_append.mp hl' with hl' | hl'
    · obtain ⟨m,hm,rfl⟩ := (h.mem_updated hlen).mp hl'
      obtain ⟨hm,hassigned⟩ := List.mem_filter.mp hm
      obtain rfl := hnum.eq_of_ref hl hm hi
      exact .updated (of_decide_eq_true hassigned)
    · obtain ⟨j,m,hj,rfl⟩ := h.mem_added.mp hl'
      obtain ⟨hm,hnew⟩ := List.mem_filter.mp (List.mem_of_getElem? hj)
      obtain rfl := hnum.eq_of_ref hl hm hi
      exact .added (of_decide_eq_true hnew) j hj
  cases hfind : (out.eau.updated.flatten ++ out.added).find? (·.ref = i) with
  | none =>
    obtain ⟨l',hl',hi⟩ := hsome
    exact absurd (decide_eq_true hi) (List.find?_eq_none.mp hfind l' hl')
  | some l' =>
    have hi := List.find?_some hfind
    refine ⟨l',hback l' (List.mem_of_find?_eq_some hfind) (of_decide_eq_true hi),?_⟩
    rw [BlockDiffs.readBack,hfind]
    rfl

section Validity

variable (hcap : L.length + (addedLeaves leaves).length < 2^64)
include hcap

theorem WrittenBack.added_position (hnew : l.stateElement.leafIndex = unassignedLeafIndex)
    (h : WrittenBack c L leaves l l') :
    ∃ j, (addedLeaves leaves)[j]? = some l ∧ l'.leafIndex = L.length + j ∧
      l'.stateElement.leafIndex = UInt64.ofNat (L.length + j) ∧ l'.stateElement.merkleProof = l.merkleProof ++
        pathAfter c L (updatedLeaves leaves) (addedLeaves leaves) (L.length + j) := by
  cases h with
  | updated hassigned => exact absurd hnew hassigned
  | added _ j hj =>
    have hlt := (List.getElem?_eq_some_iff.mp hj).1
    exact ⟨j,hj,toNat_ofNat_of_lt (by omega),rfl,rfl⟩

/-- What comes back is found in the accumulator if the proof of a new leaf was empty. -/
theorem WrittenBack.valid (hdistinct : ((updatedLeaves leaves).map ElementLeaf.leafIndex).Nodup)
    (hvalid : ∀ l ∈ updatedLeaves leaves, ValidProof c L l.stateElement) (hl : l ∈ leaves)
    (hempty : l.stateElement.leafIndex = unassignedLeafIndex → l.merkleProof = []) (h : WrittenBack c L leaves l l') :
    ValidProof c (leavesAfter c L (updatedLeaves leaves) (addedLeaves leaves)) l'.stateElement ∧
      leafFn (leavesAfter c L (updatedLeaves leaves) (addedLeaves leaves)) l'.leafIndex = l'.hash c := by
  by_cases hnew : l.stateElement.leafIndex = unassignedLeafIndex
  · obtain ⟨j,hj,hindex,hposition,hproof⟩ := h.added_position hcap hnew
    have hlt := (List.getElem?_eq_some_iff.mp hj).1
    refine ⟨validPath_iff.mpr ⟨?_,?_⟩,?_⟩
    · change l'.leafIndex < _
      rw [hindex,length_leavesAfter]
      omega
    · change _ = path _ _ _ l'.leafIndex
      rw [hproof,hempty hnew,List.nil_append,hindex,length_leavesAfter]
      rfl
    · rw [hindex,leafFn_leavesAfter_added hj]
      cases h with
      | updated hassigned => exact absurd hnew hassigned
      | added _ i _ =>
        rw [← hposition]
        rfl
  · have hupdated : l ∈ updatedLeaves leaves := List.mem_filter.mpr ⟨hl,decide_eq_true hnew⟩
    have hlt : l.leafIndex < L.length := (validPath_iff.mp (hvalid l hupdated)).1
    cases h with
    | added hunassigned _ _ => exact absurd hunassigned hnew
    | updated _ =>
      refine ⟨validPath_iff.mpr ⟨?_,?_⟩,?_⟩
      · change l.leafIndex < _
        rw [length_leavesAfter]
        omega
      · rw [length_leavesAfter]
        rfl
      · change leafFn _ l.leafIndex = _
        rw [leafFn_leavesAfter_of_lt hlt,getElem?_replaceLeaves_of_mem hdistinct hupdated hlt]
        rfl

theorem WrittenBack.empty_of_valid (hnew : l.stateElement.leafIndex = unassignedLeafIndex) (h : WrittenBack c L leaves l l')
    (hvalid : ValidProof c (leavesAfter c L (updatedLeaves leaves) (addedLeaves leaves)) l'.stateElement) :
    l.merkleProof = [] := by
  obtain ⟨j,-,hindex,-,hproof⟩ := h.added_position hcap hnew
  have hpath := (validPath_iff.mp hvalid).2
  change _ = path _ _ _ l'.leafIndex at hpath
  rw [hproof,hindex,length_leavesAfter] at hpath
  exact List.append_left_eq_self.mp hpath

end Validity

end Written

section Nodes

variable {c : Crypto} {f : ℕ → Hash256} {n : ℕ}

/-- A complete subtree of the forest over the first `n` values of `f`, with its hash. -/
def IsNode (c : Crypto) (f : ℕ → Hash256) (n : ℕ) (t : TreeNode) : Prop :=
  (t.col + 1) * 2^t.row ≤ n ∧ t.hash = nodeAt c.sumPair f t.row t.col

theorem inTree_subtree_le {r : ℕ} (h : InTree n k i) (hr : r ≤ k) : (i / 2^r + 1) * 2^r ≤ n := by
  -- the last leaf below the node is in the same tree
  have hpos : 0 < 2^r := Nat.two_pow_pos r
  have hlast : i / 2^r = (i / 2^r * 2^r + (2^r - 1)) / 2^r := by
    rw [Nat.mul_comm,Nat.mul_add_div hpos,Nat.div_eq_of_lt (by omega : 2^r - 1 < 2^r),Nat.add_zero]
  have hlt := (h.of_div_eq hlast hr).lt
  rw [Nat.add_mul,Nat.one_mul]
  omega

theorem climbNodes_isNode {k i row len : ℕ} {seen : List TreeNode} (hin : InTree n k i) (hrow : row + len = k)
    (hseen : ∀ t ∈ seen, IsNode c f n t) :
    ∀ t ∈ climbNodes c i row (i / 2^row) (nodeAt c.sumPair f row (i / 2^row)) (siblings c.sumPair f i row len) seen,
      IsNode c f n t := by
  induction len generalizing row seen with
  | zero => exact hseen
  | succ len ih =>
    have hjoin := @join_sib _ c.sumPair f row (i / 2^row)
    rw [← div_two_pow_succ] at hjoin
    rw [siblings_succ,climbNodes]
    simp only [testBit_iff_div,hjoin,← div_two_pow_succ]
    split_ifs with hany
    · exact hseen
    · refine ih (by omega) ?_
      intro t ht
      rcases List.mem_append.mp ht with ht | ht
      · exact hseen t ht
      · rw [List.mem_singleton.mp ht]
        exact ⟨inTree_subtree_le hin (by omega),rfl⟩

/-- For leaves stored in the forest only nodes of the forest are reported. -/
theorem leafNodes_isNode (leaves : List ElementLeaf)
    (hleaves : ∀ l ∈ leaves, ValidProof c L l.stateElement ∧ leafFn L l.leafIndex = l.hash c) :
    ∀ t ∈ leaves.foldl (leafNodes c) [], IsNode c (leafFn L) L.length t := by
  suffices hfold : ∀ seen : List TreeNode, (∀ t ∈ seen, IsNode c (leafFn L) L.length t) →
      ∀ t ∈ leaves.foldl (leafNodes c) seen, IsNode c (leafFn L) L.length t from hfold [] (by simp)
  induction leaves with
  | nil => exact fun seen hseen => hseen
  | cons l leaves ih =>
    intro seen hseen
    rw [List.forall_mem_cons] at hleaves
    refine ih hleaves.2 _ ?_
    obtain ⟨⟨k,hin,hpath⟩,hhash⟩ := hleaves.1
    have hstart : ∀ t ∈ seen ++ [⟨0,l.leafIndex,l.hash c⟩], IsNode c (leafFn L) L.length t := by
      intro t ht
      rcases List.mem_append.mp ht with ht | ht
      · exact hseen t ht
      · rw [List.mem_singleton.mp ht]
        refine ⟨?_,hhash.symm⟩
        have hlt : l.leafIndex < L.length := hin.lt
        simpa using hlt
    have hclimb := @climbNodes_isNode _ _ _ k _ 0 _ _ hin (Nat.zero_add k) hstart
    rw [pow_zero,Nat.div_one,← hpath,← hhash] at hclimb
    rw [leafNodes,← hhash]
    exact hclimb

end Nodes

section Report

variable {c : Crypto}

theorem Tracked.reported_leaves (h : Tracked c txns ms) (bid : BlockID) (written : List ElementLeaf) :
    ((ms.diffs bid).withLeaves written).appliedLeaves c = ((ms.diffs bid).appliedLeaves c).mapIdx fun i l =>
      { l with stateElement := BlockDiffs.readBack written i l.stateElement } := by
  obtain ⟨h₁,h₂,h₃,h₄⟩ := h.coinsOnly
  simp only [BlockDiffs.appliedLeaves,BlockDiffs.withLeaves,BlockDiffs.cieStart,BlockDiffs.aeStart,
    BlockDiffs.v2fceStart,BlockDiffs.fceStart,BlockDiffs.sfeStart,MidState.diffs,h₁,h₂,h₃,h₄,List.mapIdx_nil,
    List.nil_append,List.length_nil,Nat.add_zero,List.length_mapIdx,List.mapIdx_append,List.mapIdx_mapIdx,
    List.mapIdx_cons,Nat.zero_add]
  rfl

theorem Tracked.numbered (h : Tracked c txns ms) (bid : BlockID) : Numbered ((ms.diffs bid).appliedLeaves c) := by
  intro i l hl
  rw [h.appliedLeaves_eq] at hl
  by_cases hlt : i < ms.sces.length
  · rw [List.getElem?_append_left (by simpa [siacoinLeaves] using hlt),siacoinLeaves,List.getElem?_mapIdx,
      List.getElem?_eq_getElem hlt] at hl
    rw [← Option.some.inj hl]
    rfl
  · rw [List.getElem?_append_right (by simpa [siacoinLeaves] using hlt)] at hl
    have hlen := (List.getElem?_eq_some_iff.mp hl).1
    simp only [siacoinLeaves,List.length_mapIdx,List.length_singleton] at hlen
    obtain rfl : i = ms.sces.length := by omega
    simp only [siacoinLeaves,List.length_mapIdx,Nat.sub_self,List.getElem?_cons_zero] at hl
    rw [← Option.some.inj hl]
    rfl

/-- Every element that an update reports is found in the accumulator with its reported flag, and every
node is one of the forest over the stored leaves. -/
structure ReportsValid (c : Crypto) (s : State) (leaves : List StoredLeaf) (au : ApplyUpdate) : Prop where
  siacoins : ∀ d ∈ au.diffs.sces, s.elements.containsLeaf c (siacoinLeaf c 0 d.siacoinElement d.spent) = true
  chainIndex : s.elements.containsLeaf c (chainIndexLeaf c 0 au.diffs.cie) = true
  nodes : ∀ t ∈ au.forEachTreeNode c,
    IsNode c (leafFn (leafHashes c (leaves.map (StoredLeaf.record c)))) leaves.length t

def reportMessages (c : Crypto) (leaves : List StoredLeaf) (au : ApplyUpdate) : List Bytes :=
  forestMessages c (leaves.map (StoredLeaf.record c)) ++ (au.diffs.appliedLeaves c).flatMap (proofMessages c)

/-- No output of the block is presented with a proof. -/
def EphemeralProofsEmpty (b : Block) : Prop :=
  ∀ txn ∈ b.v2Transactions, ∀ sci ∈ txn.siacoinInputs,
    sci.parent.stateElement.leafIndex = unassignedLeafIndex → sci.parent.stateElement.merkleProof = []

/-- Whether an element is found does not depend on its pointer. -/
theorem reports_iff_contains (h : Tracked c txns ms) {bid : BlockID} {written : List ElementLeaf} {au : ApplyUpdate}
    (hdiffs : au.diffs = (ms.diffs bid).withLeaves written) (acc : ElementAccumulator) :
    ((∀ d ∈ au.diffs.sces, acc.containsLeaf c (siacoinLeaf c 0 d.siacoinElement d.spent) = true) ∧
      acc.containsLeaf c (chainIndexLeaf c 0 au.diffs.cie) = true) ↔
      ∀ l ∈ au.diffs.appliedLeaves c, acc.containsLeaf c l = true := by
  have hleaves : au.diffs.appliedLeaves c = siacoinLeaves c SiacoinElementDiff.spent au.diffs.sces ++
      [chainIndexLeaf c au.diffs.sces.length au.diffs.cie] := by
    obtain ⟨h₁,h₂,h₃,h₄⟩ := h.coinsOnly
    simp only [hdiffs,BlockDiffs.appliedLeaves,BlockDiffs.cieStart,BlockDiffs.aeStart,BlockDiffs.v2fceStart,
      BlockDiffs.fceStart,BlockDiffs.sfeStart,BlockDiffs.withLeaves,MidState.diffs,h₁,h₂,h₃,h₄]
    rfl
  rw [hleaves,List.forall_mem_append,List.forall_mem_singleton]
  refine and_congr ⟨fun hall l hl => ?_,fun hall d hd => ?_⟩ Iff.rfl
  · obtain ⟨i,d,hd,rfl⟩ := mem_siacoinLeaves hl
    exact hall d hd
  · obtain ⟨i,hi⟩ := List.mem_iff_getElem?.mp hd
    refine hall (siacoinLeaf c i d.siacoinElement d.spent) (List.mem_iff_getElem?.mpr ⟨i,?_⟩)
    rw [siacoinLeaves,List.getElem?_mapIdx,hi]
    rfl

end Report

section Reachable

variable {c : Crypto} {m : QdayManifest} {S : Set Bytes} {blocks : List Block} {ch : Chain} {b : Block} {s : State}
  {au : ApplyUpdate} {created unspent coins : List Coin}

theorem BlockLedger.length_created (h : BlockLedger s created unspent txns coins ms) :
    (ms.sces.filter SiacoinElementDiff.created).length = coins.length := by
  have hperm : ((ms.sces.filter SiacoinElementDiff.created).map fun d => d.siacoinElement.coin).Perm coins := by
    have hnodup := List.Nodup.of_map _ h.keyed.nodup
    refine (List.perm_ext_iff_of_nodup ?_ (List.Nodup.of_map _ h.coins_nodup)).mpr fun k => ?_
    · refine List.Nodup.map_on ?_ (hnodup.filter _)
      intro d hd d' hd' heq
      exact List.inj_on_of_nodup_map h.keyed.nodup (List.mem_filter.mp hd).1 (List.mem_filter.mp hd').1
        (congrArg Coin.id heq)
    · simp only [List.mem_map,List.mem_filter]
      constructor
      · rintro ⟨d,⟨hd,hcreated⟩,rfl⟩
        exact (h.new _ d (h.keyed.record_eq_some.mpr ⟨hd,rfl⟩) hcreated).2.2
      · intro hk
        obtain ⟨d,hrecord,hcreated,rfl⟩ := h.listed k hk
        exact ⟨d,⟨(h.keyed.record_eq_some.mp hrecord).1,hcreated⟩,rfl⟩
  rw [← hperm.length_eq,List.length_map]

theorem length_coinsOf (c : Crypto) (height : UInt64) (txns : List V2Transaction) :
    (coinsOf c height txns).length = (txns.map fun txn => txn.siacoinOutputs.length).sum := by
  induction txns with
  | nil => rfl
  | cons txn txns ih =>
    rw [coinsOf,List.flatMap_cons,List.length_append,List.map_cons,List.sum_cons,← ih,V2Transaction.coins,
      List.length_mapIdx]
    rfl

theorem LedgerStep.length_added {consumed : List SiacoinOutputID} {bids : List BlockID} {genesis : Transaction}
    (h : LedgerStep c S genesis s b created unspent consumed bids ms) (hb : BlockAccepted c s b {})
    (htracked : Tracked c b.v2Transactions ms) :
    (addedLeaves ((ms.diffs (b.id c)).appliedLeaves c)).length =
      (b.v2Transactions.map fun txn => txn.siacoinOutputs.length).sum + 2 := by
  have hrecords := congrArg List.length (h.records.addedLeaves_records (c := c) ms.sces.length ⟨ms.base.childHeight,b.id c⟩)
  rw [List.length_map,List.length_map,createdLeaves,List.length_append,List.length_map,h.records.length_created,
    List.length_singleton] at hrecords
  obtain ⟨payout,hpayout,-⟩ := hb.payout
  rw [Block.coins,List.length_append,List.length_mapIdx,hpayout,List.length_singleton,length_coinsOf] at hrecords
  rw [htracked.appliedLeaves_eq]
  exact hrecords

theorem BlockLedger.proof_empty (h : BlockLedger s created unspent b.v2Transactions coins ms)
    (htracked : Tracked c b.v2Transactions ms) (hempty : EphemeralProofsEmpty b) :
    ∀ l ∈ (ms.diffs (b.id c)).appliedLeaves c, l.stateElement.leafIndex = unassignedLeafIndex → l.merkleProof = [] := by
  intro l hl hnew
  rw [htracked.appliedLeaves_eq] at hl
  rcases List.mem_append.mp hl with hl | hl
  · obtain ⟨i,d,hd,rfl⟩ := mem_siacoinLeaves hl
    obtain hfresh | ⟨txn,htxn,sci,hsci,hparent⟩ := h.source _ d (h.keyed.record_eq_some.mpr ⟨hd,rfl⟩)
    · change d.siacoinElement.stateElement.merkleProof = []
      rw [hfresh]
      rfl
    · change d.siacoinElement.stateElement.merkleProof = []
      change d.siacoinElement.stateElement.leafIndex = _ at hnew
      rw [← hparent] at hnew ⊢
      exact hempty txn htxn sci hsci hnew
  · rw [List.mem_singleton.mp hl]
    rfl

/-- The parts of an applied block that the reports are read from. -/
structure Applied (c : Crypto) (b : Block) (leaves leaves' : List StoredLeaf) (acc acc' : ElementAccumulator)
    (ms : MidState) (au : ApplyUpdate) (out : AppliedLeaves) : Prop where
  tracked : Tracked c b.v2Transactions ms
  diffs : au.diffs = (ms.diffs (b.id c)).withLeaves (out.eau.updated.flatten ++ out.added)
  applied : acc.applyBlock c (updatedLeaves ((ms.diffs (b.id c)).appliedLeaves c))
    (addedLeaves ((ms.diffs (b.id c)).appliedLeaves c)) = .ok out
  before : Represents c acc (leafHashes c (leaves.map (StoredLeaf.record c)))
  after : Represents c acc' (leafHashes c (leaves'.map (StoredLeaf.record c)))
  distinct : ((updatedLeaves ((ms.diffs (b.id c)).appliedLeaves c)).map ElementLeaf.leafIndex).Nodup
  valid : ∀ l ∈ updatedLeaves ((ms.diffs (b.id c)).appliedLeaves c),
    ValidProof c (leafHashes c (leaves.map (StoredLeaf.record c))) l.stateElement
  hashes : leafHashes c (leaves'.map (StoredLeaf.record c)) =
    (leavesAfter c (leafHashes c (leaves.map (StoredLeaf.record c))) (updatedLeaves ((ms.diffs (b.id c)).appliedLeaves c))
      (addedLeaves ((ms.diffs (b.id c)).appliedLeaves c))).take (2^64 - 1)

namespace Applied

variable {leaves leaves' : List StoredLeaf} {acc : ElementAccumulator}
  (h : Applied c b leaves leaves' acc acc' ms au out)
  (hcap : leaves.length + (addedLeaves ((ms.diffs (b.id c)).appliedLeaves c)).length < 2^64)
include h hcap

theorem hashes_eq : leafHashes c (leaves'.map (StoredLeaf.record c)) =
    leavesAfter c (leafHashes c (leaves.map (StoredLeaf.record c))) (updatedLeaves ((ms.diffs (b.id c)).appliedLeaves c))
      (addedLeaves ((ms.diffs (b.id c)).appliedLeaves c)) := by
  rw [h.hashes,List.take_of_length_le]
  rw [length_leavesAfter,length_leafHashes,List.length_map]
  omega

theorem reported (hl' : (au.diffs.appliedLeaves c)[i]? = some l') :
    ∃ l, ((ms.diffs (b.id c)).appliedLeaves c)[i]? = some l ∧ WrittenBack c
      (leafHashes c (leaves.map (StoredLeaf.record c))) ((ms.diffs (b.id c)).appliedLeaves c) l l' := by
  rw [h.diffs,h.tracked.reported_leaves,List.getElem?_mapIdx,Option.map_eq_some_iff] at hl'
  obtain ⟨l,hl,rfl⟩ := hl'
  have happlied := appliedTo_of_ok h.before h.distinct h.valid
    (by rw [length_leafHashes,List.length_map]; exact hcap) h.applied
  have hlen : ∀ l ∈ updatedLeaves ((ms.diffs (b.id c)).appliedLeaves c), l.merkleProof.length < 64 := fun l hl =>
    (validUpdates_of_validProof [] h.distinct h.valid).length_lt h.before.length_lt hl
  obtain ⟨l',hback,hread⟩ := readBack_written happlied (h.tracked.numbered _) hlen hl l.stateElement
  refine ⟨l,hl,?_⟩
  have heq : { l with stateElement := BlockDiffs.readBack (out.eau.updated.flatten ++ out.added) i l.stateElement } = l' := by
    rw [hread]
    cases hback with
    | updated _ => rfl
    | added _ j _ => rfl
  rw [heq]
  exact hback

/-- With empty ephemeral proofs everything reported is in the accumulator and in its forest. -/
theorem reportsValid (hacc : s.elements = acc')
    (hempty : ∀ l ∈ (ms.diffs (b.id c)).appliedLeaves c, l.stateElement.leafIndex = unassignedLeafIndex →
      l.merkleProof = []) : ReportsValid c s leaves' au := by
  have hstored : ∀ l' ∈ au.diffs.appliedLeaves c,
      ValidProof c (leafHashes c (leaves'.map (StoredLeaf.record c))) l'.stateElement ∧
        leafFn (leafHashes c (leaves'.map (StoredLeaf.record c))) l'.leafIndex = l'.hash c := by
    intro l' hl'
    obtain ⟨i,hi⟩ := List.mem_iff_getElem?.mp hl'
    obtain ⟨l,hl,hback⟩ := h.reported hcap hi
    have hmem := List.mem_of_getElem? hl
    rw [h.hashes_eq hcap]
    exact hback.valid (by rw [length_leafHashes,List.length_map]; exact hcap) h.distinct h.valid hmem (hempty l hmem)
  have hcontains := (reports_iff_contains h.tracked h.diffs s.elements).mpr fun l' hl' => by
    rw [hacc]
    exact h.after.containsLeaf (hstored l' hl').1 (hstored l' hl').2
  refine ⟨hcontains.1,hcontains.2,?_⟩
  have hnodes := leafNodes_isNode (au.diffs.appliedLeaves c) hstored
  rw [length_leafHashes,List.length_map] at hnodes
  exact hnodes

/-- An ephemeral proof that is not empty makes a reported element that is not found. -/
theorem empty_of_contains (hinj : Set.InjOn c.sum256 S)
    (hforest : ∀ x ∈ forestMessages c (leaves'.map (StoredLeaf.record c)), x ∈ S)
    (hproofs : ∀ l ∈ au.diffs.appliedLeaves c, ∀ x ∈ proofMessages c l, x ∈ S)
    (hcontains : ∀ l ∈ au.diffs.appliedLeaves c, acc'.containsLeaf c l = true)
    (hl : l ∈ (ms.diffs (b.id c)).appliedLeaves c) (hnew : l.stateElement.leafIndex = unassignedLeafIndex) :
    l.merkleProof = [] := by
  obtain ⟨i,hi⟩ := List.mem_iff_getElem?.mp hl
  have hreported : ∃ l', (au.diffs.appliedLeaves c)[i]? = some l' := by
    rw [h.diffs,h.tracked.reported_leaves,List.getElem?_mapIdx,hi]
    exact ⟨_,rfl⟩
  obtain ⟨l',hl'⟩ := hreported
  obtain ⟨l₁,hl₁,hback⟩ := h.reported hcap hl'
  obtain rfl : l = l₁ := Option.some.inj (hi.symm.trans hl₁)
  have hmem := List.mem_of_getElem? hl'
  obtain ⟨-,hvalid⟩ := mem_of_containsLeaf h.after hinj hforest (hproofs l' hmem) (hcontains l' hmem)
  rw [h.hashes_eq hcap] at hvalid
  exact hback.empty_of_valid (by rw [length_leafHashes,List.length_map]; exact hcap) hnew hvalid

end Applied

/-- The chain index of the block is the last leaf added, so it is lost when the counter of leaves is
full. -/
theorem fits_of_contains {leaves : List StoredLeaf} {ci : ChainIndex} {se : StateElement}
    (hinj : Set.InjOn c.sum256 S)
    (hafter : Represents c acc' (leafHashes c ((storedAfter leaves ms.sces ci).map (StoredLeaf.record c))))
    (hforest : ∀ x ∈ forestMessages c ((storedAfter leaves ms.sces ci).map (StoredLeaf.record c)), x ∈ S)
    (hproof : ∀ x ∈ proofMessages c (chainIndexLeaf c 0 ⟨ci.id, se, ci⟩), x ∈ S)
    (hknown : ∀ l ∈ storedAfter leaves ms.sces ci, l.element.preimage ∈ S) (hci : (StoredElement.index ci).preimage ∈ S)
    (hfresh : ∀ l ∈ leaves, ∀ ci', l.element = .index ci' → ci'.id ≠ ci.id)
    (hcontains : acc'.containsLeaf c (chainIndexLeaf c 0 ⟨ci.id, se, ci⟩) = true) :
    leaves.length + (createdLeaves ms.sces ci).length < 2^64 := by
  obtain ⟨hrecord,-⟩ := mem_of_containsLeaf hafter hinj hforest hproof hcontains
  rw [List.getElem?_map,Option.map_eq_some_iff] at hrecord
  obtain ⟨l,hl,hrecord⟩ := hrecord
  have hmem := List.mem_of_getElem? hl
  have hhash : c.sum256 l.element.preimage = c.sum256 (StoredElement.index ci).preimage :=
    congrArg LeafRecord.elementHash hrecord
  obtain ⟨ci',helement,hid⟩ := StoredElement.eq_index (hinj (hknown l hmem) hci hhash)
  by_contra hfull
  -- cut off at the limit, the list ends before the leaf of this block
  have hcut : l ∈ leaves.map (StoredLeaf.markSpent ms.sces) ++
      (ms.sces.filter SiacoinElementDiff.created).map (fun d => ⟨.coin d.siacoinElement.coin,d.spent⟩) := by
    rw [storedAfter,createdLeaves,← List.append_assoc,List.take_append_of_le_length] at hmem
    · exact List.mem_of_mem_take hmem
    · rw [createdLeaves,List.length_append,List.length_singleton] at hfull
      rw [List.length_append,List.length_map]
      omega
  rcases List.mem_append.mp hcut with hold | hcoin
  · obtain ⟨l₀,hl₀,rfl⟩ := List.mem_map.mp hold
    rw [StoredLeaf.markSpent_element] at helement
    exact hfresh l₀ hl₀ ci' helement hid
  · obtain ⟨d,-,rfl⟩ := List.mem_map.mp hcoin
    cases helement

theorem Chain.Valid.applied (hideal : IdealOn c.sum256 default S) (h : Chain.Valid c m S blocks ch)
    (hvalid : validateBlock c ch.state b {} = .ok ()) (ha : AppliedBlock c ch.state b {} s au ms out)
    (hS : ∀ x ∈ (ch.after c b s ms.sces).messages, x ∈ S) :
    Applied c b ch.leaves (ch.after c b s ms.sces).leaves ch.state.elements s.elements ms au out := by
  obtain ⟨hhashed,-⟩ := Chain.after_hashed hS
  obtain ⟨hafter,hstep⟩ := h.after hideal hvalid ha hS
  obtain ⟨ms₁,hms₁,htracked,-⟩ := (block_accepted hvalid).tracked
  obtain rfl : ms = ms₁ := Except.ok.inj (ha.midState.symm.trans hms₁)
  obtain ⟨hdistinct,hproofs,hhashes⟩ := hstep.records.leafHashes_after htracked h.leaves hideal.inj h.represents
    hhashed.forest hhashed.inputs (b.id c)
  exact ⟨htracked,ha.diffs,ha.elements,h.represents,hafter.represents,hdistinct,hproofs,hhashes⟩

end Reachable

section Claim

variable (c : Crypto) (target : State → Block → Time) (m : QdayManifest) (blocks : List Block) (ch : Chain) (b : Block)
  (t : Time) (s : State) (au : ApplyUpdate)

/-- On a reachable state the report about a valid block is right exactly if no output of the block was
presented with a proof and the accumulator had room for the leaves of the block. -/
theorem reports_valid_iff (hrun : runChain c target m blocks = .ok ch) (hvalid : validateBlock c ch.state b {} = .ok ())
    (happly : applyBlock c ch.state b {} t = .ok (s, au))
    (hideal : IdealOn c.sum256 default {x | x ∈ (ch.after c b s au.diffs.sces).messages ++
      reportMessages c (ch.after c b s au.diffs.sces).leaves au}) :
    ReportsValid c s (ch.after c b s au.diffs.sces).leaves au ↔ EphemeralProofsEmpty b ∧
      ch.state.elements.numLeaves.toNat + (b.v2Transactions.map fun txn => txn.siacoinOutputs.length).sum + 2 < 2^64 := by
  obtain ⟨ms,out,ha⟩ := applyBlock_inv happly
  have heffects : au.diffs.sces.map SiacoinElementDiff.effect = ms.sces.map SiacoinElementDiff.effect :=
    ha.diffs ▸ withLeaves_effects _ _
  rw [Chain.after_congr heffects] at hideal ⊢
  set S := {x | x ∈ (ch.after c b s ms.sces).messages ++ reportMessages c (ch.after c b s ms.sces).leaves au}
  have hS : ∀ x ∈ (ch.after c b s ms.sces).messages, x ∈ S := fun x hx => List.mem_append_left _ hx
  have hreport : ∀ x ∈ reportMessages c (ch.after c b s ms.sces).leaves au, x ∈ S := fun x hx =>
    List.mem_append_right _ hx
  have hforest : ∀ x ∈ forestMessages c ((ch.after c b s ms.sces).leaves.map (StoredLeaf.record c)), x ∈ S := fun x hx =>
    hreport x (List.mem_append_left _ hx)
  have hproofs : ∀ l ∈ au.diffs.appliedLeaves c, ∀ x ∈ proofMessages c l, x ∈ S := fun l hl x hx =>
    hreport x (List.mem_append_right _ (List.mem_flatMap.mpr ⟨l,hl,hx⟩))
  have hchain := runChain_valid hideal hrun fun x hx => hS x (List.mem_append_left _ hx)
  obtain ⟨hchain',hstep⟩ := hchain.after hideal hvalid ha hS
  have happlied := hchain.applied hideal hvalid ha hS
  have hcount := hstep.length_added (block_accepted hvalid) happlied.tracked
  have hlength : ch.state.elements.numLeaves.toNat = ch.leaves.length := by
    rw [hchain.represents.numLeaves,length_leafHashes,List.length_map]
  have hcreated : (createdLeaves ms.sces ⟨ch.state.childHeight,b.id c⟩).length =
      (b.v2Transactions.map fun txn => txn.siacoinOutputs.length).sum + 2 := by
    have hrecords := congrArg List.length
      (hstep.records.addedLeaves_records (c := c) ms.sces.length ⟨ch.state.childHeight,b.id c⟩)
    rw [List.length_map,List.length_map] at hrecords
    rw [← hrecords,← hcount,happlied.tracked.appliedLeaves_eq,MidState.diffs,hstep.records.base]
  rw [hlength,Nat.add_assoc]
  constructor
  · intro hreports
    have hcontains := (reports_iff_contains happlied.tracked happlied.diffs s.elements).mp
      ⟨hreports.siacoins,hreports.chainIndex⟩
    have hcie : au.diffs.cie = ⟨b.id c,au.diffs.cie.stateElement,⟨ch.state.childHeight,b.id c⟩⟩ := by
      rw [happlied.diffs,BlockDiffs.withLeaves,MidState.diffs,hstep.records.base]
    have hfresh : b.id c ∉ (chainHeaders c m blocks).map (BlockHeader.id c) := by
      have hnodup := hchain'.linked.nodup hideal hchain'.headers
      rw [chainHeaders_snoc,List.map_cons,List.nodup_cons] at hnodup
      exact hnodup.1
    have hfits : ch.leaves.length + (createdLeaves ms.sces ⟨ch.state.childHeight,b.id c⟩).length < 2^64 := by
      have hlast : chainIndexLeaf c au.diffs.cieStart au.diffs.cie ∈ au.diffs.appliedLeaves c := by
        simp [BlockDiffs.appliedLeaves]
      have hproof := hproofs _ hlast
      have hfound := hreports.chainIndex
      rw [hcie] at hproof hfound
      refine fits_of_contains hideal.inj hchain'.represents hforest hproof hchain'.leaves.known ?_ ?_ hfound
      · exact (Chain.after_hashed hS).2 ⟨.index ⟨ch.state.childHeight,b.id c⟩,false⟩
          (List.mem_append_right _ (List.mem_singleton.mpr rfl))
      · intro l hl ci' hci' hid
        have hmem := hchain.indices l hl ci' hci'
        rw [hid] at hmem
        exact hfresh hmem
    rw [hcreated] at hfits
    refine ⟨fun txn htxn sci hsci hnew => ?_,hfits⟩
    obtain ⟨d,hrecord,hparent⟩ := hstep.records.presented txn htxn sci hsci
    obtain ⟨i,hi⟩ := List.mem_iff_getElem?.mp (hstep.records.keyed.record_eq_some.mp hrecord).1
    have hleaf : siacoinLeaf c i d.siacoinElement d.spent ∈ (ms.diffs (b.id c)).appliedLeaves c := by
      rw [happlied.tracked.appliedLeaves_eq]
      refine List.mem_append_left _ (List.mem_iff_getElem?.mpr ⟨i,?_⟩)
      rw [siacoinLeaves,List.getElem?_mapIdx,hi]
      rfl
    rw [hparent] at hleaf
    exact happlied.empty_of_contains (by rw [hcount]; exact hfits) hideal.inj hforest hproofs hcontains hleaf hnew
  · rintro ⟨hempty,hfits⟩
    exact happlied.reportsValid (by rw [hcount]; exact hfits) rfl (hstep.records.proof_empty happlied.tracked hempty)

def sampleReport (proof : List Hash256) : Outcome (Chain × Block × State × ApplyUpdate) := do
  let ch ← runChain sampleCrypto (fun _ _ => default) sampleManifest []
  let b ← sampleBlock proof
  validateBlock sampleCrypto ch.state b {}
  let (s, au) ← applyBlock sampleCrypto ch.state b {} default
  return (ch, b, s, au)

theorem sampleReport_inv {proof : List Hash256} {ch : Chain} {b : Block} {s : State} {au : ApplyUpdate}
    (h : sampleReport proof = .ok (ch, b, s, au)) :
    runChain sampleCrypto (fun _ _ => default) sampleManifest [] = .ok ch ∧
      validateBlock sampleCrypto ch.state b {} = .ok () ∧ applyBlock sampleCrypto ch.state b {} default = .ok (s, au) := by
  simp only [sampleReport,bind_eq_ok,pure_eq_ok,Prod.mk.injEq] at h
  obtain ⟨ch',hrun,b',-,⟨⟩,hvalid,⟨s',au'⟩,happly,rfl,rfl,rfl,rfl⟩ := h
  exact ⟨hrun,hvalid,happly⟩

theorem reports_valid_iff_sample : ∃ ch b s au, runChain sampleCrypto (fun _ _ => default) sampleManifest [] = .ok ch ∧
    validateBlock sampleCrypto ch.state b {} = .ok () ∧ applyBlock sampleCrypto ch.state b {} default = .ok (s, au) ∧
    au.diffs.sces.length = 4 ∧ ReportsValid sampleCrypto s (ch.after sampleCrypto b s au.diffs.sces).leaves au := by
  obtain ⟨⟨ch,b,s,au⟩,hreport,hcheck⟩ := exists_of_holds (x := sampleReport [])
    (p := fun r => decide (
      (((r.1.after sampleCrypto r.2.1 r.2.2.1 r.2.2.2.diffs.sces).messages ++ reportMessages sampleCrypto
        (r.1.after sampleCrypto r.2.1 r.2.2.1 r.2.2.2.diffs.sces).leaves r.2.2.2).dedup.map sampleCrypto.sum256).Nodup ∧
      (∀ x ∈ (r.1.after sampleCrypto r.2.1 r.2.2.1 r.2.2.2.diffs.sces).messages ++ reportMessages sampleCrypto
        (r.1.after sampleCrypto r.2.1 r.2.2.1 r.2.2.2.diffs.sces).leaves r.2.2.2, sampleCrypto.sum256 x ≠ default) ∧
      r.2.2.2.diffs.sces.length = 4 ∧
      (∀ txn ∈ r.2.1.v2Transactions, ∀ sci ∈ txn.siacoinInputs,
        sci.parent.stateElement.leafIndex = unassignedLeafIndex → sci.parent.stateElement.merkleProof = []) ∧
      r.1.state.elements.numLeaves.toNat +
        (r.2.1.v2Transactions.map fun txn => txn.siacoinOutputs.length).sum + 2 < 2^64))
    (by decide +kernel)
  obtain ⟨hrun,hvalid,happly⟩ := sampleReport_inv hreport
  obtain ⟨hnodup,hne,hcount,hempty,hfits⟩ := of_decide_eq_true hcheck
  exact ⟨ch,b,s,au,hrun,hvalid,happly,hcount,
    (reports_valid_iff _ _ _ _ ch b _ s au hrun hvalid happly (idealOn_of_nodup hnodup hne)).mpr ⟨hempty,hfits⟩⟩

/-- A valid block whose report contains an element that its own accumulator does not hold: the output
that `sampleChild` spends was presented with a proof of one hash. -/
theorem reported_element_not_found : ∃ ch b s au,
    runChain sampleCrypto (fun _ _ => default) sampleManifest [] = .ok ch ∧
    validateBlock sampleCrypto ch.state b {} = .ok () ∧ applyBlock sampleCrypto ch.state b {} default = .ok (s, au) ∧
    ∃ d ∈ au.diffs.sces, d.siacoinElement.id = (sampleEphemeral [default]).id ∧ d.created = true ∧ d.spent = true ∧
      s.elements.containsLeaf sampleCrypto (siacoinLeaf sampleCrypto 0 d.siacoinElement d.spent) = false := by
  obtain ⟨⟨ch,b,s,au⟩,hreport,hcheck⟩ := exists_of_holds (x := sampleReport [default])
    (p := fun r => decide (∃ d ∈ r.2.2.2.diffs.sces, d.siacoinElement.id = (sampleEphemeral [default]).id ∧
      d.created = true ∧ d.spent = true ∧
      r.2.2.1.elements.containsLeaf sampleCrypto (siacoinLeaf sampleCrypto 0 d.siacoinElement d.spent) = false))
    (by decide +kernel)
  obtain ⟨hrun,hvalid,happly⟩ := sampleReport_inv hreport
  exact ⟨ch,b,s,au,hrun,hvalid,happly,of_decide_eq_true hcheck⟩

end Claim

end QdayNode
