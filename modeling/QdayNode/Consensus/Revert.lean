import QdayNode.Consensus.Genesis

/-!
# Reverting a block

The proofs that wallets and stores keep are carried forward by `ApplyUpdate` and back
by `RevertUpdate`.  For a valid block the second undoes the first.
-/
namespace QdayNode
open ByteString MerkleForest Outcome

variable {c : Crypto} {ms : MidState}

/-- `RevertBlock` undoes what `ApplyBlock` did to proofs: a proof valid after the block becomes the
one valid before it, and a proof carried over the block and back is the proof itself. -/
theorem revertBlock_updateElementProof (c : Crypto) (s s' : State) (b : Block) (bs : V1BlockSupplement) (t : Time)
    (au : ApplyUpdate) (R : List LeafRecord) (hrep : Represents c s.elements (leafHashes c R))
    (hinj : Set.InjOn c.sum256 {m | m ∈ forestMessages c R ++ inputMessages c b.v2Transactions})
    (hvalid : validateBlock c s b bs = .ok ()) (happly : applyBlock c s b bs t = .ok (s', au)) :
    (R.length ≤ 2^63 → ∃ ru, revertBlock c s b bs = .ok ru) ∧
      ∃ L', Represents c s'.elements L' ∧ ∀ ru, revertBlock c s b bs = .ok ru →
        (∀ e : StateElement, e.leafIndex ≠ unassignedLeafIndex → e.leafIndex.toNat < R.length → ValidProof c L' e →
          ∃ e', ru.updateElementProof c e = .ok e' ∧ e'.leafIndex = e.leafIndex ∧ ValidProof c (leafHashes c R) e' ∧
            ∀ r, R[e.leafIndex.toNat]? = some r →
              s.elements.containsLeaf c ⟨0, e', r.elementHash, r.spent⟩ = true) ∧
        ∀ e : StateElement, e.leafIndex ≠ unassignedLeafIndex → ValidProof c (leafHashes c R) e →
          ∃ e₁, au.updateElementProof c e = .ok e₁ ∧ ru.updateElementProof c e₁ = .ok e := by
  obtain ⟨ms,out,ha⟩ := applyBlock_inv happly
  obtain ⟨ms₀,hms,htracked,hbase⟩ := (block_accepted hvalid).tracked
  obtain rfl : ms = ms₀ := Except.ok.inj (ha.midState.symm.trans hms)
  have hrepms : Represents c ms.base.elements (leafHashes c R) := hbase ▸ hrep
  set S := {m | m ∈ forestMessages c R ++ inputMessages c b.v2Transactions}
  have hforest : ∀ m ∈ forestMessages c R, m ∈ S := fun m hm => List.mem_append_left _ hm
  have hinputs : ∀ m ∈ inputMessages c b.v2Transactions, m ∈ S := fun m hm => List.mem_append_right _ hm
  have hdistinct := htracked.distinct hrepms hinj hforest hinputs
  have hproofs := htracked.validProof hrepms hinj hforest hinputs
  have v := validUpdates_self (hdistinct fun _ => false) (hproofs fun _ => false)
    (htracked.stored_hash hrepms hinj hforest hinputs)
  have hout := ha.elements
  rw [htracked.updatedLeaves_applied] at hout
  set L := leafHashes c R with hL
  have hlen : L.length = R.length := length_leafHashes R
  refine ⟨fun hcap => revertBlock_returns htracked hms (block_accepted hvalid).parentID (v.updateLeaves (hlen ▸ hcap)),_,
    ha.acc ▸ represents_of_ok hrep (hdistinct _) (hproofs _) hout,fun ru hru => ?_⟩
  obtain ⟨rev,hrev,heru⟩ := revertBlock_inv htracked hms hru
  simp only [RevertUpdate.updateElementProof,ApplyUpdate.updateElementProof,heru,ha.eau]
  set L' := leavesAfter c L (updatedLeaves (siacoinLeaves c SiacoinElementDiff.spent ms.sces))
    (addedLeaves ((ms.diffs (b.id c)).appliedLeaves c)) with hL'
  have hkept : ∀ x < L.length, (∀ l ∈ updatedLeaves (siacoinLeaves c (fun _ => false) ms.sces), l.leafIndex ≠ x) →
      leafFn L' x = leafFn L x := fun x hx hno => leafFn_leavesAfter_kept c L _ _ ms.sces _ hx hno
  have hlt := hrep.length_lt
  refine ⟨fun e hassigned hidx hproof => ?_,fun e hassigned hproof => ?_⟩
  · obtain ⟨k,hin⟩ := exists_inTree (hlen ▸ hidx)
    have hlong : L.length ≤ (L'.take (2^64 - 1)).length := by
      rw [List.length_take,hL',length_leavesAfter]
      omega
    obtain ⟨ext,hpath⟩ := hproof.split hin hlong
    have hvalid' : ValidProof c L { e with merkleProof := siblings c.sumPair (leafFn L) e.leafIndex.toNat 0 k } :=
      ⟨k,hin,rfl⟩
    refine ⟨_,revertElementProof_of_ok hrep v hrev (fun x hx hno => ?_) hin ext hpath hassigned,rfl,hvalid',
      fun r hr => hrep.containsLeaf hvalid' ?_⟩
    · rw [← hkept x hx hno,leafFn,List.getD_eq_getElem?_getD,List.getElem?_take_of_lt (by omega),
        ← List.getD_eq_getElem?_getD]
      rfl
    · refine (leafFn_leafHashes hr).trans ?_
      rw [LeafRecord.preimage,UInt64.ofNat_toNat]
      rfl
  · obtain ⟨k,hin,hpath⟩ := hproof
    refine ⟨_,updateElementProof_of_ok hrep (hdistinct _) (hproofs _) hout hin hpath hassigned,?_⟩
    have hback := revertElementProof_of_ok
      (e := ⟨e.leafIndex,siblings c.sumPair (leafFn L') e.leafIndex.toNat 0 k ++ out.eau.treeGrowth k⟩)
      hrep v hrev hkept hin _ rfl hassigned
    rw [← hpath] at hback
    exact hback

section Sample

theorem Tracked.updatedLeaves_eq_nil {txns : List V2Transaction} (h : Tracked c txns ms)
    (hno : ∀ txn ∈ txns, txn.siacoinInputs = []) (spent : SiacoinElementDiff → Bool) :
    updatedLeaves (siacoinLeaves c spent ms.sces) = [] := by
  rw [updatedLeaves,List.filter_eq_nil_iff]
  intro l hl hassigned
  obtain ⟨i,d,hd,rfl⟩ := mem_siacoinLeaves hl
  obtain ⟨-,-,txn,htxn,sci,hsci,-⟩ := h.assigned d hd (of_decide_eq_true hassigned)
  rw [hno txn htxn] at hsci
  cases hsci

theorem sampleHeader_valid (acc : ElementAccumulator) (commitment : Hash256) :
    validateHeader sampleCrypto (sampleState acc) ⟨(sampleState acc).index.id, 0, sampleTime, commitment⟩ = .ok () := by
  have hmedian : (sampleState ⟨fun _ => default,0⟩).medianTimestamp = .ok sampleNetwork.genesisTimestamp := by
    decide +kernel
  have htarget : (sampleState ⟨fun _ => default,0⟩).powTarget = .ok (FixedBytes.ofNat 32 maxTarget) := by
    decide +kernel
  have hmax : (FixedBytes.ofNat 32 maxTarget).toNat = maxTarget := by decide +kernel
  have hafter : sampleTime.before sampleNetwork.genesisTimestamp = false := by decide +kernel
  rw [validateHeader]
  simp only [bind_unit_eq_ok,rejectIf_eq_ok,not_true_eq_false,not_false_eq_true,true_and,ne_eq]
  refine bind_eq_ok.mpr ⟨_,hmedian,?_⟩
  rw [bind_unit_eq_ok,bind_unit_eq_ok]
  refine ⟨by simp [hafter],by simp [Network.nonceFactor],bind_eq_ok.mpr ⟨_,htarget,?_⟩⟩
  rw [rejectIf_eq_ok,lessWork,hmax,decide_eq_true_iff,not_lt]
  have hlt := (BlockHeader.id sampleCrypto ⟨(sampleState acc).index.id,0,sampleTime,commitment⟩).toNat_lt
  unfold maxTarget
  omega

theorem sampleBlock_valid (acc : ElementAccumulator) :
    ∃ b, candidateWithNonce sampleCrypto (sampleState acc) sampleKeys [] sampleTime 0 = .ok b ∧
      (∀ txn ∈ b.v2Transactions, txn.siacoinInputs = []) ∧ validateBlock sampleCrypto (sampleState acc) b {} = .ok () := by
  have hv1 : (sampleState acc).qdayV1Active (sampleState acc).childHeight = false := by rfl
  refine ⟨_,rfl,?_,emptyCandidate_valid hv1 rfl (by decide +kernel) (by decide +kernel) (sampleHeader_valid acc _)⟩
  intro txn htxn
  obtain rfl : txn = coinbaseMarker sampleKeys 0 := List.mem_singleton.mp htxn
  rfl

theorem applyBlock_of_parts {s next : State} {b : Block} {bs : V1BlockSupplement} {t : Time}
    {out : AppliedLeaves} (hparent : b.parentID = s.index.id)
    (hms : (newMidState s).applyBlock c b bs = .ok ms)
    (hout : s.elements.applyBlock c (updatedLeaves ((ms.diffs (b.id c)).appliedLeaves c))
      (addedLeaves ((ms.diffs (b.id c)).appliedLeaves c)) = .ok out)
    (hnext : applyHeader c (s.withBlock ms out.acc) (b.header c) t = .ok next) :
    ∃ s' au, applyBlock c s b bs t = .ok (s', au) := by
  simp only [applyBlock,hparent,crashIf,ne_eq,not_true_eq_false,and_false,if_false,ok_bind,hms,
    hout,hnext]
  exact ⟨_,_,rfl⟩

theorem sampleHeader_applied (acc acc' : ElementAccumulator) (ms : MidState) (commitment : Hash256) :
    ∃ next, applyHeader sampleCrypto ((sampleState acc).withBlock ms acc')
      ⟨(sampleState acc).index.id, 0, sampleTime, commitment⟩ default = .ok next := by
  -- the work fields do not depend on what the block did to the rest of the state
  obtain ⟨work,hwork⟩ : ∃ w, updateTotalWork ((sampleState acc).withBlock ms acc') = .ok w :=
    exists_of_isOk (x := updateTotalWork (sampleState ⟨fun _ => default,0⟩)) (by decide +kernel)
  obtain ⟨difficulty,hdifficulty⟩ :
      ∃ d, adjustDifficulty ((sampleState acc).withBlock ms acc') sampleTime default = .ok d :=
    exists_of_isOk (x := adjustDifficulty (sampleState ⟨fun _ => default,0⟩) sampleTime default)
      (by decide +kernel)
  obtain ⟨oak,hoak⟩ : ∃ w, updateOakWork ((sampleState acc).withBlock ms acc') = .ok w :=
    exists_of_isOk (x := updateOakWork (sampleState ⟨fun _ => default,0⟩)) (by decide +kernel)
  have hparent : (sampleState acc).index.id ≠ default := by
    change FixedBytes.ofNat 32 5 ≠ default
    decide +kernel
  have hheight : ¬ ((sampleState acc).withBlock ms acc').index.height > 0 := by
    change ¬ (0 : UInt64) > 0
    decide
  simp only [applyHeader,advanceWork,hheight,false_and,crashIf,if_false,hparent,hwork,hdifficulty,hoak,
    ok_bind]
  exact ⟨_,rfl⟩

theorem sampleBlock_applied (acc : ElementAccumulator) :
    ∃ b s' au, (∀ txn ∈ b.v2Transactions, txn.siacoinInputs = []) ∧
      validateBlock sampleCrypto (sampleState acc) b {} = .ok () ∧
      applyBlock sampleCrypto (sampleState acc) b {} default = .ok (s', au) ∧
      ∃ ru, revertBlock sampleCrypto (sampleState acc) b {} = .ok ru := by
  obtain ⟨b,hb,hno,hvalid⟩ := sampleBlock_valid acc
  have haccepted := block_accepted hvalid
  obtain ⟨ms,hms,htracked,-⟩ := haccepted.tracked
  obtain rfl := emptyCandidate_eq rfl hb
  obtain ⟨next,hnext⟩ := sampleHeader_applied acc _ ms _
  obtain ⟨s',au,happly⟩ := applyBlock_of_parts (t := default) haccepted.parentID hms
    (by rw [htracked.updatedLeaves_applied,htracked.updatedLeaves_eq_nil hno]; rfl) hnext
  have hrevert := revertBlock_returns htracked hms haccepted.parentID (by
    rw [htracked.updatedLeaves_eq_nil hno]
    exact rfl)
  exact ⟨_,s',au,hno,hvalid,happly,hrevert⟩

theorem revertBlock_updateElementProof_single :
    let R : List LeafRecord := [⟨default,false⟩]
    let s := sampleState ⟨fun _ => sampleCrypto.sum256 (LeafRecord.preimage ⟨default,false⟩ 0),1⟩
    ∃ b s' au ru e₁, validateBlock sampleCrypto s b {} = .ok () ∧
      applyBlock sampleCrypto s b {} default = .ok (s', au) ∧ revertBlock sampleCrypto s b {} = .ok ru ∧
      ValidProof sampleCrypto (leafHashes sampleCrypto R) ⟨0,[]⟩ ∧
      au.updateElementProof sampleCrypto ⟨0,[]⟩ = .ok e₁ ∧ ru.updateElementProof sampleCrypto e₁ = .ok ⟨0,[]⟩ := by
  intro R s
  obtain ⟨b,s',au,hno,hvalid,happly,ru,hrevert⟩ := sampleBlock_applied s.elements
  have hrep : Represents sampleCrypto s.elements (leafHashes sampleCrypto R) := represents_singleton _ _
  have hproof : ValidProof sampleCrypto (leafHashes sampleCrypto R) ⟨0,[]⟩ := validProof_singleton _ _
  have hinputs : inputMessages sampleCrypto b.v2Transactions = [] :=
    List.flatMap_eq_nil_iff.mpr fun txn htxn => by rw [hno txn htxn,List.flatMap_nil]
  have hinj : Set.InjOn sampleCrypto.sum256
      {m | m ∈ forestMessages sampleCrypto R ++ inputMessages sampleCrypto b.v2Transactions} := by
    rw [hinputs]
    exact injOn_of_nodup (by decide +kernel)
  obtain ⟨-,L',-,hall⟩ := revertBlock_updateElementProof sampleCrypto s s' b {} default au R hrep hinj hvalid happly
  obtain ⟨e₁,hforward,hback⟩ := (hall ru hrevert).2 ⟨0,[]⟩ (by decide) hproof
  exact ⟨b,s',au,ru,e₁,hvalid,happly,hrevert,hproof,hforward,hback⟩

/-- The leaf at the index that marks ephemeral elements has a valid proof on both sides of a block
and can be carried over it in neither direction. -/
theorem revertElementProof_panics_at_unassigned :
    let R : List LeafRecord := List.replicate 10101010101010101011 ⟨default,false⟩
    let f := leafFn (leafHashes sampleCrypto R)
    let s := sampleState
      ⟨fun k => nodeAt sampleCrypto.sumPair f k (10101010101010101011 / 2^k - 1),10101010101010101011⟩
    ∃ b s' au ru L' e e', Represents sampleCrypto s.elements (leafHashes sampleCrypto R) ∧
      validateBlock sampleCrypto s b {} = .ok () ∧ applyBlock sampleCrypto s b {} default = .ok (s', au) ∧
      revertBlock sampleCrypto s b {} = .ok ru ∧ Represents sampleCrypto s'.elements L' ∧
      e.leafIndex = unassignedLeafIndex ∧ ValidProof sampleCrypto (leafHashes sampleCrypto R) e ∧
      au.updateElementProof sampleCrypto e = crash "cannot update an ephemeral element" ∧
      e'.leafIndex = unassignedLeafIndex ∧ ValidProof sampleCrypto L' e' ∧
      ru.updateElementProof sampleCrypto e' = crash "cannot update an ephemeral element" := by
  intro R f s
  obtain ⟨b,s',au,hno,hvalid,happly,ru,hrevert⟩ := sampleBlock_applied s.elements
  have hlen : (leafHashes sampleCrypto R).length = 10101010101010101011 := by
    rw [length_leafHashes,List.length_replicate]
  have hrep : Represents sampleCrypto s.elements (leafHashes sampleCrypto R) := by
    refine ⟨?_,fun k _ => ?_⟩
    · rw [hlen]
      rfl
    · rw [hlen]
      rfl
  obtain ⟨ms,out,ha⟩ := applyBlock_inv happly
  obtain ⟨ms₀,hms,htracked,-⟩ := (block_accepted hvalid).tracked
  obtain rfl : ms = ms₀ := Except.ok.inj (ha.midState.symm.trans hms)
  have hout := ha.elements
  rw [htracked.updatedLeaves_applied,htracked.updatedLeaves_eq_nil hno] at hout
  have hrep' := represents_of_ok hrep (by simp) (by simp) hout
  rw [← ha.acc] at hrep'
  have hvalidAt : ∀ L : List Hash256, unassignedLeafIndex.toNat < L.length →
      ValidProof sampleCrypto L ⟨unassignedLeafIndex,path sampleCrypto.sumPair (leafFn L) L.length
        unassignedLeafIndex.toNat⟩ := fun L hlt => validPath_iff.mpr ⟨hlt,rfl⟩
  have hidx : unassignedLeafIndex.toNat = 10101010101010101010 := by decide
  refine ⟨b,s',au,ru,_,⟨unassignedLeafIndex,_⟩,⟨unassignedLeafIndex,_⟩,hrep,hvalid,happly,hrevert,hrep',
    rfl,hvalidAt _ ?_,?_,rfl,hvalidAt _ ?_,?_⟩
  · rw [hlen,hidx]
    omega
  · simp [ApplyUpdate.updateElementProof,ElementApplyUpdate.updateElementProof,crashIf,crash,bind,
      Except.bind]
  · rw [List.length_take,length_leavesAfter,hlen,hidx]
    omega
  · simp [RevertUpdate.updateElementProof,ElementRevertUpdate.updateElementProof,crashIf,crash,bind,
      Except.bind]

end Sample

end QdayNode
