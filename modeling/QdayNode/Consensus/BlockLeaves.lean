import QdayNode.Consensus.Accepted

/-!
# The leaves of a block

A valid block hands the accumulator leaves that are stored in it, each once, with
their sibling paths, and leaves without a position.  Reverting hands it the same
positions with the contents they had before.
-/
namespace QdayNode
open ByteString MerkleForest Outcome

variable {txn : V2Transaction} {d : SiacoinElementDiff} {txns : List V2Transaction} {sci : V2SiacoinInput}

variable {c : Crypto} {s : State} {b : Block} {bs : V1BlockSupplement} {ms ms' : MidState}

namespace MidState

theorem applyUnsupported_of_supported (h : qdayUnsupported txn = false) (txid : TransactionID) :
    ms.applyUnsupported c txid txn = pure ms := by
  simp only [qdayUnsupported,ne_eq,Bool.or_eq_false_iff,decide_eq_false_iff_not,not_not,Nat.add_eq_zero_iff,
    List.length_eq_zero_iff,Option.isSome_eq_false_iff,Option.isNone_iff_eq_none] at h
  obtain ⟨⟨⟨⟨⟨⟨h₁,h₂⟩,h₃⟩,h₄⟩,h₅⟩,h₆⟩,h₇⟩ := h
  simp only [applyUnsupported,h₁,h₂,h₃,h₄,h₅,h₆,h₇]
  rfl

theorem applyV2Transaction_of_supported (h : qdayUnsupported txn = false) :
    ms.applyV2Transaction c txn =
      (txn.siacoinInputs.foldlM (fun ms sci => ms.spendSiacoinElement sci.parent (txn.id c)) (ms.noteCanaryProof txn) >>=
        foldIdx (fun i sco ms => ms.createSiacoinElement (siacoinOutputID c (txn.id c) i) sco) txn.siacoinOutputs 0) := by
  simp only [applyV2Transaction,applyUnsupported_of_supported h,bind_pure]

theorem noteCanaryProof_eq (ms : MidState) (txn : V2Transaction) :
    ∃ proved, ms.noteCanaryProof txn = { ms with qdayProved := proved } := by
  unfold noteCanaryProof
  split
  · split_ifs
    · exact ⟨true,rfl⟩
    · exact ⟨ms.qdayProved,rfl⟩
  · exact ⟨ms.qdayProved,rfl⟩

theorem Records.mem {id : SiacoinOutputID} {x : SiacoinElementDiff} (h : Records ms ms' id d) (hk : ms.Keyed)
    (hx : x ∈ ms'.sces) : x = d ∨ x ∈ ms.sces := by
  have hrecord := h.keyed.record_eq_some.mpr ⟨hx,rfl⟩
  rw [h.record_eq] at hrecord
  by_cases hid : x.siacoinElement.id = id
  · rw [hid,Function.update_self] at hrecord
    exact .inl (Option.some.inj hrecord).symm
  · rw [Function.update_of_ne hid] at hrecord
    exact .inr (hk.record_eq_some.mp hrecord).1

end MidState

/-- Every record with a position is an unspent element of the accumulator that an input of the
transactions so far has spent; no other kind of element is recorded. -/
structure Tracked (c : Crypto) (txns : List V2Transaction) (ms : MidState) : Prop where
  keyed : ms.Keyed
  coinsOnly : ms.sfes = [] ∧ ms.fces = [] ∧ ms.v2fces = [] ∧ ms.aes = []
  assigned : ∀ d ∈ ms.sces, d.siacoinElement.stateElement.leafIndex ≠ unassignedLeafIndex →
    d.spent = true ∧ ms.base.elements.containsUnspentSiacoinElement c d.siacoinElement = true ∧
      ∃ txn ∈ txns, ∃ sci ∈ txn.siacoinInputs, sci.parent = d.siacoinElement

namespace Tracked

theorem init (c : Crypto) (s : State) : Tracked c [] (newMidState s) := by
  refine ⟨RecordTable.keyed_empty _,⟨rfl,rfl,rfl,rfl⟩,?_⟩
  intro d hd
  cases hd

theorem records (h : Tracked c txns ms) {id : SiacoinOutputID}
    (hrec : MidState.Records ms ms' id d)
    (hd : d.siacoinElement.stateElement.leafIndex ≠ unassignedLeafIndex →
      d.spent = true ∧ ms.base.elements.containsUnspentSiacoinElement c d.siacoinElement = true ∧
        ∃ txn ∈ txns, ∃ sci ∈ txn.siacoinInputs, sci.parent = d.siacoinElement) : Tracked c txns ms' := by
  obtain ⟨hsfes,hfces,hv2fces,haes⟩ := h.coinsOnly
  refine ⟨hrec.keyed,⟨?_,?_,?_,?_⟩,?_⟩
  · rw [hrec.same.sfes,hsfes]
  · rw [hrec.same.fces,hfces]
  · rw [hrec.same.v2fces,hv2fces]
  · rw [hrec.same.aes,haes]
  · intro x hx hassigned
    rw [hrec.same.base]
    obtain rfl | hx := hrec.mem h.keyed hx
    · exact hd hassigned
    · exact h.assigned x hx hassigned

theorem create (h : Tracked c txns ms) (maturityHeight : UInt64) (id : SiacoinOutputID) (sco : SiacoinOutput) :
    ∃ ms', ms.createSiacoinElementAt maturityHeight id sco = .ok ms' ∧ Tracked c txns ms' ∧ ms'.base = ms.base := by
  obtain ⟨ms',hcreate,hrec,-⟩ := h.keyed.createSiacoinElementAt maturityHeight id sco
  exact ⟨ms',hcreate,h.records hrec fun hassigned => absurd rfl hassigned,hrec.same.base⟩

theorem spend (h : Tracked c txns ms) (htxn : txn ∈ txns)
    (hsci : sci ∈ txn.siacoinInputs)
    (hsource : sci.parent.stateElement.leafIndex ≠ unassignedLeafIndex →
      ms.base.elements.containsUnspentSiacoinElement c sci.parent = true) (txid : TransactionID) :
    ∃ ms', ms.spendSiacoinElement sci.parent txid = .ok ms' ∧ Tracked c txns ms' ∧ ms'.base = ms.base := by
  obtain ⟨ms',hspend,hrec,-⟩ := h.keyed.spendSiacoinElement sci.parent txid
  exact ⟨ms',hspend,h.records hrec fun hassigned => ⟨rfl,hsource hassigned,txn,htxn,sci,hsci,rfl⟩,
    hrec.same.base⟩

theorem applyV2Transaction (h : Tracked c txns ms) (hsupported : qdayUnsupported txn = false)
    (hinputs : ∀ sci ∈ txn.siacoinInputs, sci.parent.stateElement.leafIndex ≠ unassignedLeafIndex →
      ms.base.elements.containsUnspentSiacoinElement c sci.parent = true) :
    ∃ ms', ms.applyV2Transaction c txn = .ok ms' ∧ Tracked c (txns ++ [txn]) ms' ∧ ms'.base = ms.base := by
  rw [MidState.applyV2Transaction_of_supported hsupported]
  obtain ⟨proved,hnote⟩ := ms.noteCanaryProof_eq txn
  have hstart : Tracked c (txns ++ [txn]) (ms.noteCanaryProof txn) := by
    rw [hnote]
    refine ⟨h.keyed,h.coinsOnly,fun d hd hassigned => ?_⟩
    obtain ⟨hspent,hcontains,t,ht,hrest⟩ := h.assigned d hd hassigned
    exact ⟨hspent,hcontains,t,List.mem_append_left _ ht,hrest⟩
  have hbase : (ms.noteCanaryProof txn).base = ms.base := by rw [hnote]
  obtain ⟨ms₁,hspends,htracked₁,hbase₁⟩ := foldlM_induct
    (P := fun _ ms₁ => Tracked c (txns ++ [txn]) ms₁ ∧ ms₁.base = ms.base)
    (f := fun ms sci => ms.spendSiacoinElement sci.parent (txn.id c)) (l := txn.siacoinInputs)
    (fun pre sci post ms₁ hsplit hpre => by
      have hsci : sci ∈ txn.siacoinInputs := by simp [hsplit]
      obtain ⟨ms₂,hspend,htracked,hsame⟩ := hpre.1.spend (List.mem_append_right _ (List.mem_singleton.mpr rfl)) hsci
        (hpre.2 ▸ hinputs sci hsci) (txn.id c)
      exact ⟨ms₂,hspend,htracked,hsame.trans hpre.2⟩)
    ⟨hstart,hbase⟩
  obtain ⟨ms₂,hcreates,htracked₂,hbase₂⟩ := foldIdx_induct
    (P := fun _ ms₂ => Tracked c (txns ++ [txn]) ms₂ ∧ ms₂.base = ms.base)
    (f := fun i sco ms => ms.createSiacoinElement (siacoinOutputID c (txn.id c) i) sco) (l := txn.siacoinOutputs)
    (fun pre sco post ms₂ _ hpre => by
      obtain ⟨ms₃,hcreate,htracked,hsame⟩ := hpre.1.create ms₂.base.childHeight _ sco
      exact ⟨ms₃,hcreate,htracked,hsame.trans hpre.2⟩)
    ⟨htracked₁,hbase₁⟩
  exact ⟨ms₂,by rw [hspends,ok_bind,hcreates],htracked₂,hbase₂⟩

end Tracked

theorem applyBlock_payout (htransactions : b.transactions = [])
    (hsupplement : bs.transactions = [] ∧ bs.expiringFileContracts = [])
    (hrun : b.v2Transactions.foldlM (MidState.applyV2Transaction c) (newMidState s) = .ok ms) {payout : SiacoinOutput}
    (hpayout : b.minerPayouts = [payout]) :
    (newMidState s).applyBlock c b bs = ms.createImmatureSiacoinElement (minerOutputID c (b.id c) 0) payout := by
  simp only [MidState.applyBlock,crashIf,hsupplement,htransactions,hpayout,hrun,foldIdx,
    MidState.applyTransactions,List.length_nil,ne_eq,not_true_eq_false,or_self,and_false,if_false,ok_bind,
    List.foldlM_nil,bind_assoc]
  exact bind_pure _

namespace BlockAccepted

theorem applyBlock_eq (hb : BlockAccepted c s b bs)
    (hrun : b.v2Transactions.foldlM (MidState.applyV2Transaction c) (newMidState s) = .ok ms) {payout : SiacoinOutput}
    (hpayout : b.minerPayouts = [payout]) :
    (newMidState s).applyBlock c b bs = ms.createImmatureSiacoinElement (minerOutputID c (b.id c) 0) payout :=
  applyBlock_payout hb.transactions hb.supplement hrun hpayout

/-- The transactions of a valid block are admitted one after the other and applied without a
panic, and their records are tracked. -/
theorem run_admitted (hb : BlockAccepted c s b bs) :
    ∃ ms, b.v2Transactions.foldlM (MidState.applyV2Transaction c) (newMidState s) = .ok ms ∧
      Tracked c b.v2Transactions ms ∧ ms.base = s ∧ ∀ txn ∈ b.v2Transactions, ∃ ms₀, Admitted c ms₀ txn ∧ ms₀.base = s := by
  refine hb.induct (P := fun txns ms => Tracked c txns ms ∧ ms.base = s ∧
    ∀ txn ∈ txns, ∃ ms₀, Admitted c ms₀ txn ∧ ms₀.base = s)
    ⟨Tracked.init c s,rfl,fun txn htxn => absurd htxn List.not_mem_nil⟩ ?_
  intro pre txn post ms _ hpre hadmitted
  obtain ⟨htracked,hbase,hbefore⟩ := hpre
  have hboth : qdayUnsupported txn = false ∧ ∀ sci ∈ txn.siacoinInputs,
      sci.parent.stateElement.leafIndex ≠ unassignedLeafIndex →
      ms.base.elements.containsUnspentSiacoinElement c sci.parent = true :=
    ⟨hadmitted.supported,fun sci hsci hassigned => hadmitted.contains hsci hassigned⟩
  obtain ⟨ms',happly,htracked',hbase'⟩ := htracked.applyV2Transaction hboth.1 hboth.2
  refine ⟨ms',happly,htracked',hbase'.trans hbase,fun t ht => ?_⟩
  rcases List.mem_append.mp ht with ht | ht
  · exact hbefore t ht
  · obtain rfl := List.mem_singleton.mp ht
    exact ⟨ms,hadmitted,hbase⟩

theorem run_tracked (hb : BlockAccepted c s b bs) :
    ∃ ms, b.v2Transactions.foldlM (MidState.applyV2Transaction c) (newMidState s) = .ok ms ∧
      Tracked c b.v2Transactions ms ∧ ms.base = s := by
  obtain ⟨ms,hrun,htracked,hbase,-⟩ := hb.run_admitted
  exact ⟨ms,hrun,htracked,hbase⟩

theorem mem_admitted (hb : BlockAccepted c s b bs) (h : txn ∈ b.v2Transactions) :
    ∃ ms, Admitted c ms txn := by
  obtain ⟨-,-,-,-,hadmitted⟩ := hb.run_admitted
  obtain ⟨ms,hadmitted,-⟩ := hadmitted txn h
  exact ⟨ms,hadmitted⟩

theorem contains (hb : BlockAccepted c s b bs) (h : txn ∈ b.v2Transactions)
    (hsci : sci ∈ txn.siacoinInputs) (hassigned : sci.parent.stateElement.leafIndex ≠ unassignedLeafIndex) :
    s.elements.containsUnspentSiacoinElement c sci.parent = true := by
  obtain ⟨-,-,-,-,hadmitted⟩ := hb.run_admitted
  obtain ⟨ms,hhere,hbase⟩ := hadmitted txn h
  rw [← hbase]
  exact hhere.contains hsci hassigned

theorem tracked (hb : BlockAccepted c s b bs) :
    ∃ ms, (newMidState s).applyBlock c b bs = .ok ms ∧ Tracked c b.v2Transactions ms ∧ ms.base = s := by
  obtain ⟨ms,hrun,htracked,hbase⟩ := hb.run_tracked
  obtain ⟨payout,hpayout,-⟩ := hb.payout
  obtain ⟨ms',hcreate,htracked',hbase'⟩ := htracked.create ms.base.maturityHeight (minerOutputID c (b.id c) 0) payout
  exact ⟨ms',by rw [hb.applyBlock_eq hrun hpayout]; exact hcreate,htracked',hbase'.trans hbase⟩

end BlockAccepted

theorem leafPreimage_injective {e e' : SiacoinElement} (h : e.leafPreimage = e'.leafPreimage) : e.coin = e'.coin := by
  simp only [SiacoinElement.leafPreimage,SiacoinOutput.encodeV2,List.append_assoc] at h
  obtain ⟨hid,h⟩ := (prefixCode_fixedBytes 32).apply (List.append_cancel_left h)
  obtain ⟨hvalue,h⟩ := Currency.prefixCode_encodeV2.apply h
  obtain ⟨haddress,h⟩ := (prefixCode_fixedBytes 32).apply h
  have hmaturity := encodeUint64_injective h
  have houtput : e.siacoinOutput = e'.siacoinOutput := by
    cases he : e.siacoinOutput
    cases he' : e'.siacoinOutput
    simp_all
  rw [SiacoinElement.coin,SiacoinElement.coin,hid,houtput,hmaturity]

def siacoinLeaves (c : Crypto) (spent : SiacoinElementDiff → Bool) (sces : List SiacoinElementDiff) :
    List ElementLeaf :=
  sces.mapIdx fun i d => siacoinLeaf c i d.siacoinElement (spent d)

section Leaves

variable {spent : SiacoinElementDiff → Bool} {sces : List SiacoinElementDiff}

def SiacoinElementDiff.leafIndex (d : SiacoinElementDiff) : UInt64 := d.siacoinElement.stateElement.leafIndex

theorem mem_siacoinLeaves {l : ElementLeaf} (h : l ∈ siacoinLeaves c spent sces) :
    ∃ i, ∃ d ∈ sces, l = siacoinLeaf c i d.siacoinElement (spent d) := by
  obtain ⟨i,hi,rfl⟩ := List.mem_mapIdx.mp h
  exact ⟨i,_,List.getElem_mem hi,rfl⟩

theorem map_leafIndex_updatedLeaves (c : Crypto) (spent : SiacoinElementDiff → Bool) (sces : List SiacoinElementDiff) :
    (updatedLeaves (siacoinLeaves c spent sces)).map ElementLeaf.leafIndex =
      (sces.filter fun d => d.leafIndex ≠ unassignedLeafIndex).map fun d => d.leafIndex.toNat := by
  have hmap : (siacoinLeaves c spent sces).map (fun l => l.stateElement.leafIndex) =
      sces.map SiacoinElementDiff.leafIndex := by
    refine List.ext_getElem? fun i => ?_
    simp only [siacoinLeaves,List.getElem?_map,List.getElem?_mapIdx,Option.map_map]
    rfl
  have hfilter := congrArg (List.filter fun i => i ≠ unassignedLeafIndex) hmap
  rw [List.filter_map,List.filter_map] at hfilter
  have hmapped := congrArg (List.map UInt64.toNat) hfilter
  rw [List.map_map,List.map_map] at hmapped
  exact hmapped

end Leaves

section Stored

/-- The messages hashed to check one input against the accumulator. -/
def V2SiacoinInput.messages (c : Crypto) (sci : V2SiacoinInput) : List Bytes :=
  sci.parent.leafPreimage :: proofMessages c (siacoinLeaf c 0 sci.parent false)

def inputMessages (c : Crypto) (txns : List V2Transaction) : List Bytes :=
  txns.flatMap fun txn => txn.siacoinInputs.flatMap (V2SiacoinInput.messages c)

variable {R : List LeafRecord} {S : Set Bytes}
  (hrep : Represents c ms.base.elements (leafHashes c R)) (hinj : Set.InjOn c.sum256 S)
  (hforest : ∀ m ∈ forestMessages c R, m ∈ S) (hmessages : ∀ m ∈ inputMessages c txns, m ∈ S)
include hrep hinj hforest hmessages

theorem Tracked.stored (h : Tracked c txns ms) (hd : d ∈ ms.sces)
    (hassigned : d.leafIndex ≠ unassignedLeafIndex) :
    R[d.leafIndex.toNat]? = some ⟨c.sum256 d.siacoinElement.leafPreimage, false⟩ ∧
      ValidProof c (leafHashes c R) d.siacoinElement.stateElement ∧ d.siacoinElement.leafPreimage ∈ S := by
  obtain ⟨-,hcontains,txn,htxn,sci,hsci,hparent⟩ := h.assigned d hd hassigned
  have hin : ∀ m ∈ sci.messages c, m ∈ S := fun m hm =>
    hmessages m (List.mem_flatMap.mpr ⟨txn,htxn,List.mem_flatMap.mpr ⟨sci,hsci,hm⟩⟩)
  rw [V2SiacoinInput.messages,hparent,List.forall_mem_cons] at hin
  obtain ⟨hrecord,hproof⟩ := mem_of_containsLeaf hrep hinj hforest hin.2 hcontains
  exact ⟨hrecord,hproof,hin.1⟩

theorem Tracked.distinct (h : Tracked c txns ms) (spent : SiacoinElementDiff → Bool) :
    ((updatedLeaves (siacoinLeaves c spent ms.sces)).map ElementLeaf.leafIndex).Nodup := by
  rw [map_leafIndex_updatedLeaves]
  have hnodup := h.keyed.nodup
  refine List.Nodup.map_on ?_ ((List.Nodup.of_map _ hnodup).filter _)
  intro d hd d' hd' heq
  simp only [List.mem_filter,ne_eq,decide_not,Bool.not_eq_true',decide_eq_false_iff_not] at hd hd'
  obtain ⟨hrecord,-,hmem⟩ := h.stored hrep hinj hforest hmessages hd.1 hd.2
  obtain ⟨hrecord',-,hmem'⟩ := h.stored hrep hinj hforest hmessages hd'.1 hd'.2
  -- one position stores one element, and records of one element are one record
  rw [heq,hrecord'] at hrecord
  have hhash : c.sum256 d'.siacoinElement.leafPreimage = c.sum256 d.siacoinElement.leafPreimage :=
    congrArg LeafRecord.elementHash (Option.some.inj hrecord)
  have hid : d'.siacoinElement.id = d.siacoinElement.id := congrArg Coin.id (leafPreimage_injective (hinj hmem' hmem hhash))
  exact List.inj_on_of_nodup_map hnodup hd.1 hd'.1 hid.symm

theorem Tracked.validProof (h : Tracked c txns ms) (spent : SiacoinElementDiff → Bool) :
    ∀ l ∈ updatedLeaves (siacoinLeaves c spent ms.sces), ValidProof c (leafHashes c R) l.stateElement := by
  intro l hl
  obtain ⟨hl,hassigned⟩ := List.mem_filter.mp hl
  obtain ⟨i,d,hd,rfl⟩ := mem_siacoinLeaves hl
  exact (h.stored hrep hinj hforest hmessages hd (of_decide_eq_true hassigned)).2.1

theorem Tracked.stored_hash (h : Tracked c txns ms) :
    ∀ l ∈ updatedLeaves (siacoinLeaves c (fun _ => false) ms.sces), leafFn (leafHashes c R) l.leafIndex = l.hash c := by
  intro l hl
  obtain ⟨hl,hassigned⟩ := List.mem_filter.mp hl
  obtain ⟨i,d,hd,rfl⟩ := mem_siacoinLeaves hl
  obtain ⟨hrecord,-,-⟩ := h.stored hrep hinj hforest hmessages hd (of_decide_eq_true hassigned)
  refine (leafFn_leafHashes hrecord).trans ?_
  rw [LeafRecord.preimage,UInt64.ofNat_toNat]
  rfl

end Stored

section Diffs

theorem Tracked.appliedLeaves_eq (h : Tracked c txns ms) (bid : BlockID) :
    (ms.diffs bid).appliedLeaves c = siacoinLeaves c SiacoinElementDiff.spent ms.sces ++
      [chainIndexLeaf c ms.sces.length (ms.diffs bid).cie] := by
  obtain ⟨h₁,h₂,h₃,h₄⟩ := h.coinsOnly
  simp only [BlockDiffs.appliedLeaves,BlockDiffs.cieStart,BlockDiffs.aeStart,BlockDiffs.v2fceStart,
    BlockDiffs.fceStart,BlockDiffs.sfeStart,MidState.diffs,h₁,h₂,h₃,h₄]
  rfl

theorem Tracked.revertedLeaves_eq (h : Tracked c txns ms) (bid : BlockID) :
    (ms.diffs bid).revertedLeaves c = siacoinLeaves c (fun _ => false) ms.sces := by
  obtain ⟨h₁,h₂,h₃,h₄⟩ := h.coinsOnly
  simp only [BlockDiffs.revertedLeaves,MidState.diffs,h₁,h₂,h₃,List.mapIdx_nil,List.append_nil]
  rfl

theorem Tracked.updatedLeaves_applied (h : Tracked c txns ms) (bid : BlockID) :
    updatedLeaves ((ms.diffs bid).appliedLeaves c) =
      updatedLeaves (siacoinLeaves c SiacoinElementDiff.spent ms.sces) := by
  rw [h.appliedLeaves_eq,updatedLeaves,List.filter_append]
  exact List.append_nil _

end Diffs

section Apply

variable {bh : BlockHeader} {t : Time} {s' : State}

theorem applyHeader_frame (h : applyHeader c s bh t = .ok s') :
    s'.elements = s.elements ∧ s'.network = s.network ∧ s'.qdayHeight = s.qdayHeight ∧
      s'.index = ⟨if bh.parentID = default then 0 else s.childHeight, bh.id c⟩ := by
  rw [applyHeader,bind_unit_eq_ok,bind_eq_ok] at h
  obtain ⟨-,next,hnext,h⟩ := h
  have hadvance : next.elements = s.elements ∧ next.network = s.network ∧ next.qdayHeight = s.qdayHeight ∧
      next.index = ⟨if bh.parentID = default then 0 else s.childHeight,bh.id c⟩ := by
    unfold advanceWork at hnext
    split_ifs at hnext ⊢ with hgenesis
    · simp only [bind_eq_ok,pure_eq_ok] at hnext
      obtain ⟨_,-,rfl⟩ := hnext
      exact ⟨rfl,rfl,rfl,rfl⟩
    · simp only [bind_eq_ok,pure_eq_ok] at hnext
      obtain ⟨_,-,_,-,_,-,rfl⟩ := hnext
      exact ⟨rfl,rfl,rfl,rfl⟩
  rw [pure_eq_ok] at h
  split_ifs at h
  · rw [← h]
    exact hadvance
  · rw [← h]
    exact hadvance

/-- How `ApplyBlock` is put together. -/
structure AppliedBlock (c : Crypto) (s : State) (b : Block) (bs : V1BlockSupplement) (s' : State) (au : ApplyUpdate)
    (ms : MidState) (out : AppliedLeaves) : Prop where
  midState : (newMidState s).applyBlock c b bs = .ok ms
  elements : s.elements.applyBlock c (updatedLeaves ((ms.diffs (b.id c)).appliedLeaves c))
    (addedLeaves ((ms.diffs (b.id c)).appliedLeaves c)) = .ok out
  eau : au.eau = out.eau
  diffs : au.diffs = (ms.diffs (b.id c)).withLeaves (out.eau.updated.flatten ++ out.added)
  acc : s'.elements = out.acc
  network : s'.network = s.network
  index : s'.index = ⟨if b.parentID = default then 0 else s.childHeight, b.id c⟩
  qdayHeight : s'.qdayHeight =
    if s.qdayHeight = 0 ∧ ms.qdayProved = true then s'.index.height + s.network.qday.activationDelay else s.qdayHeight

theorem applyBlock_inv {au : ApplyUpdate} (h : applyBlock c s b bs t = .ok (s', au)) :
    ∃ ms out, AppliedBlock c s b bs s' au ms out := by
  rw [applyBlock,bind_unit_eq_ok] at h
  simp only [bind_eq_ok,pure_eq_ok,Prod.mk.injEq] at h
  obtain ⟨-,ms,hms,out,hout,next,hnext,hs',rfl⟩ := h
  obtain ⟨hacc,hnetwork,hqday,hindex⟩ := applyHeader_frame hnext
  have hqday : next.qdayHeight = s.qdayHeight := hqday
  have hnetwork : next.network = s.network := hnetwork
  have hsame : s'.elements = next.elements ∧ s'.network = next.network ∧ s'.index = next.index := by
    rw [← hs']
    split_ifs
    · exact ⟨rfl,rfl,rfl⟩
    · exact ⟨rfl,rfl,rfl⟩
  refine ⟨ms,out,hms,hout,rfl,rfl,hsame.1.trans hacc,hsame.2.1.trans hnetwork,hsame.2.2.trans hindex,?_⟩
  rw [hsame.2.2,← hnetwork,← hqday,← hs']
  split_ifs
  · rfl
  · rfl

end Apply

section Revert

theorem leafFn_leavesAfter_kept (c : Crypto) (L : List Hash256) (spent spent' : SiacoinElementDiff → Bool)
    (sces : List SiacoinElementDiff) (added : List ElementLeaf) {x : ℕ} (hx : x < L.length)
    (hno : ∀ l ∈ updatedLeaves (siacoinLeaves c spent' sces), l.leafIndex ≠ x) :
    leafFn (leavesAfter c L (updatedLeaves (siacoinLeaves c spent sces)) added) x = leafFn L x := by
  rw [leafFn_leavesAfter_of_lt hx,getElem?_replaceLeaves_of_ne,leafFn,List.getD_eq_getElem?_getD]
  intro l hl heq
  have hmem := List.mem_map_of_mem (f := ElementLeaf.leafIndex) hl
  rw [map_leafIndex_updatedLeaves,← map_leafIndex_updatedLeaves c spent'] at hmem
  obtain ⟨l',hl',heq'⟩ := List.mem_map.mp hmem
  exact hno l' hl' (heq'.trans heq)

theorem revertBlock_inv (h : Tracked c txns ms)
    (hms : (newMidState s).applyBlock c b bs = .ok ms) {ru : RevertUpdate} (hru : revertBlock c s b bs = .ok ru) :
    ∃ rev, s.elements.revertBlock c (updatedLeaves (siacoinLeaves c (fun _ => false) ms.sces))
      (addedLeaves (siacoinLeaves c (fun _ => false) ms.sces)) = .ok rev ∧ ru.eru = rev.eru := by
  rw [revertBlock,bind_unit_eq_ok] at hru
  simp only [hms,h.revertedLeaves_eq,ok_bind,bind_eq_ok,pure_eq_ok] at hru
  obtain ⟨-,rev,hrev,rfl⟩ := hru
  exact ⟨rev,hrev,rfl⟩

theorem revertBlock_returns (h : Tracked c txns ms)
    (hms : (newMidState s).applyBlock c b bs = .ok ms) (hparent : b.parentID = s.index.id)
    {groups : List (List ElementLeaf)}
    (hgroups : updateLeaves c (updatedLeaves (siacoinLeaves c (fun _ => false) ms.sces)) = .ok groups) :
    ∃ ru, revertBlock c s b bs = .ok ru := by
  simp only [revertBlock,hparent,crashIf,ne_eq,not_true_eq_false,if_false,ok_bind,hms,
    h.revertedLeaves_eq,ElementAccumulator.revertBlock,hgroups]
  exact ⟨_,rfl⟩

end Revert

end QdayNode
