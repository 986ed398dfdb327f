import QdayNode.Consensus.Validation
import QdayNode.Library.Lockstep

/-!
# What no transition reads

The encoding of a state leaves out timestamps older than the chain and the roots of
trees that the accumulator does not have.  States that differ only there are alike: they
have one encoding, validation treats them the same, and blocks and headers take them to
states that are alike again.
-/
namespace QdayNode
open ByteString Outcome

variable {acc acc' : ElementAccumulator} {k : ℕ} {s t : State} {ms ms' : MidState}

/-- The same leaf count, and the same roots where there are trees. -/
structure ElementAccumulator.Alike (acc acc' : ElementAccumulator) : Prop where
  numLeaves : acc'.numLeaves = acc.numLeaves
  trees : ∀ i, acc.hasTreeAtHeight i = true → acc'.trees i = acc.trees i

/-- Only timestamps that do not count yet and roots of missing trees may differ. -/
inductive State.Alike (s : State) : State → Prop
  | mk (ts : {ts : List Time // ts.length = 11}) (acc : ElementAccumulator)
      (hts : ts.val.take s.numTimestamps = s.prevTimestamps.val.take s.numTimestamps) (hacc : s.elements.Alike acc) :
      State.Alike s { s with prevTimestamps := ts, elements := acc }

inductive MidState.Alike (ms : MidState) : MidState → Prop
  | mk (t : State) (h : ms.base.Alike t) : MidState.Alike ms { ms with base := t }

section Accumulator

variable {c : Crypto}

theorem ElementAccumulator.Alike.hasTreeAtHeight (h : acc.Alike acc') (i : ℕ) :
    acc'.hasTreeAtHeight i = acc.hasTreeAtHeight i := by
  rw [ElementAccumulator.hasTreeAtHeight,ElementAccumulator.hasTreeAtHeight,h.numLeaves]

theorem ElementAccumulator.Alike.symm (h : acc.Alike acc') : acc'.Alike acc :=
  ⟨h.numLeaves.symm,fun i htree => (h.trees i (h.hasTreeAtHeight i ▸ htree)).symm⟩

theorem ElementAccumulator.Alike.trans {acc'' : ElementAccumulator} (h : acc.Alike acc') (h' : acc'.Alike acc'') :
    acc.Alike acc'' :=
  ⟨h'.numLeaves.trans h.numLeaves,fun i htree =>
    (h'.trees i ((h.hasTreeAtHeight i).trans htree)).trans (h.trees i htree)⟩

theorem ElementAccumulator.Alike.encode (h : acc.Alike acc') : acc'.encode = acc.encode := by
  have htrees : ∀ i, (if acc'.hasTreeAtHeight i then (acc'.trees i).val else []) =
      if acc.hasTreeAtHeight i then (acc.trees i).val else [] := by
    intro i
    rw [h.hasTreeAtHeight]
    split_ifs with htree
    · rw [h.trees i htree]
    · rfl
  simp only [ElementAccumulator.encode,h.numLeaves,htrees]

theorem ElementAccumulator.Alike.containsLeaf (h : acc.Alike acc') (l : ElementLeaf) :
    acc'.containsLeaf c l = acc.containsLeaf c l := by
  rw [ElementAccumulator.containsLeaf,ElementAccumulator.containsLeaf,h.hasTreeAtHeight]
  cases htree : acc.hasTreeAtHeight l.merkleProof.length with
  | false => rfl
  | true => rw [h.trees _ htree]

/-- While leaves are added only the roots of missing trees differ. -/
structure AddState.Alike (st st' : AddState) : Prop where
  acc : st.acc.Alike st'.acc
  leaves : st'.leaves = st.leaves
  treeGrowth : st'.treeGrowth = st.treeGrowth

variable {j : ℕ} {st st' : AddState}

theorem testBit_succ_of_low {n : ℕ} (hlow : ∀ i, i < k → n.testBit i = true) (hj : k ≤ j) :
    (n + 1).testBit j = (n + 2^k).testBit j := by
  induction k with
  | zero => rfl
  | succ k ih =>
    rw [ih (fun i hi => hlow i (by omega)) (by omega)]
    exact MerkleTree.testBit_carried (hlow k (by omega)) hj

theorem tree_of_succ {numLeaves : UInt64} (hlow : ∀ i, i < k → numLeaves.toNat.testBit i = true)
    (hfree : numLeaves.toNat.testBit k = false) (hj : (numLeaves + 1).toNat.testBit j = true) :
    j = k ∨ numLeaves.toNat.testBit j = true := by
  have hlt := numLeaves.toNat_lt
  have hwrap : (numLeaves + 1).toNat = numLeaves.toNat + 1 ∨ (numLeaves + 1).toNat = 0 := by
    rw [UInt64.toNat_add,UInt64.toNat_one]
    omega
  obtain hsucc | hzero := hwrap
  · rw [hsucc] at hj
    rcases lt_trichotomy j k with hjk | hjk | hjk
    · exact .inr (hlow j hjk)
    · exact .inl hjk
    · rw [testBit_succ_of_low hlow hjk.le,MerkleTree.testBit_absorbed hfree hjk] at hj
      exact .inr hj
  · rw [hzero,Nat.zero_testBit] at hj
    cases hj

theorem mergeUp_alike (initialLeaves : UInt64) (i : ℕ) {fuel : ℕ} {h : Hash256}
    (hst : st.Alike st') (hlow : ∀ j, j < k → st.acc.numLeaves.toNat.testBit j = true) :
    (mergeUp c initialLeaves i fuel k h st).Alike (mergeUp c initialLeaves i fuel k h st') := by
  induction fuel generalizing k h st st' with
  | zero => exact hst
  | succ fuel ih =>
    rw [mergeUp,mergeUp,hst.acc.hasTreeAtHeight k]
    cases htree : st.acc.hasTreeAtHeight k with
    | false =>
      rw [if_pos Bool.false_ne_true,if_pos Bool.false_ne_true]
      refine ⟨⟨?_,fun j hj => ?_⟩,hst.leaves,hst.treeGrowth⟩
      · simp only [hst.acc.numLeaves]
      · by_cases hjk : j = k
        · simp only [hjk,Function.update_self]
        · simp only [Function.update_of_ne hjk]
          exact hst.acc.trees j ((tree_of_succ hlow htree hj).resolve_left hjk)
    | true =>
      rw [if_neg (not_not.mpr rfl),if_neg (not_not.mpr rfl),hst.acc.trees k htree]
      refine ih ⟨hst.acc,?_,?_⟩ fun j hj => ?_
      · simp only [hst.leaves]
      · simp only [hst.treeGrowth,hst.acc.numLeaves]
      · rcases Nat.lt_succ_iff_lt_or_eq.mp hj with hj | rfl
        · exact hlow j hj
        · exact htree

theorem addLeaf_alike (initialLeaves : UInt64) (i : ℕ) (hst : st.Alike st') :
    (addLeaf c initialLeaves i st).Alike (addLeaf c initialLeaves i st') := by
  rw [addLeaf,addLeaf,hst.leaves]
  split
  · exact hst
  · rw [hst.acc.numLeaves]
    exact mergeUp_alike initialLeaves i ⟨hst.acc,rfl,hst.treeGrowth⟩ fun j hj => absurd hj (Nat.not_lt_zero j)

theorem addLeaves_alike (h : acc.Alike acc') (leaves : List ElementLeaf) :
    (addLeaves c acc leaves).Alike (addLeaves c acc' leaves) := by
  have hfrom : ∀ n i {st st' : AddState}, st.Alike st' →
      (addLeavesFrom c acc.numLeaves n i st).Alike (addLeavesFrom c acc.numLeaves n i st') := by
    intro n
    induction n with
    | zero => exact fun i _ _ hst => hst
    | succ n ih => exact fun i _ _ hst => ih (i+1) (addLeaf_alike _ i hst)
  rw [addLeaves,addLeaves,h.numLeaves]
  exact hfrom _ 0 ⟨h,rfl,rfl⟩

theorem applyBlock_accumulator_alike (h : acc.Alike acc') (updated added : List ElementLeaf) :
    Agree (fun out out' : AppliedLeaves => out.acc.Alike out'.acc ∧ out'.eau = out.eau ∧ out'.added = out.added)
      (acc.applyBlock c updated added) (acc'.applyBlock c updated added) := by
  refine Agree.after (updateLeaves c updated) fun groups => ?_
  have hroots : ElementAccumulator.Alike { acc with trees := replaceRoots c acc.trees groups }
      { acc' with trees := replaceRoots c acc'.trees groups } := by
    refine ⟨h.numLeaves,fun i hi => ?_⟩
    simp only [replaceRoots]
    split
    · exact h.trees i hi
    · rfl
  have hadd := addLeaves_alike (c := c) hroots added
  refine agree_ok ⟨hadd.acc,?_,hadd.leaves⟩
  simp only [hadd.treeGrowth,hadd.acc.numLeaves]
  rw [h.numLeaves]

end Accumulator

section States

variable {c : Crypto}

theorem State.Alike.symm (h : s.Alike t) : t.Alike s := by
  obtain ⟨ts,acc,hts,hacc⟩ := h
  exact ⟨s.prevTimestamps,s.elements,hts.symm,hacc.symm⟩

theorem State.Alike.trans {u : State} (h : s.Alike t) (h' : t.Alike u) : s.Alike u := by
  obtain ⟨ts,acc,hts,hacc⟩ := h
  obtain ⟨ts',acc',hts',hacc'⟩ := h'
  exact ⟨ts',acc',hts'.trans hts,hacc.trans hacc'⟩

theorem State.Alike.encode (h : s.Alike t) : t.encode = s.encode := by
  obtain ⟨ts,acc,hts,hacc⟩ := h
  rw [State.encode,State.encode]
  simp only [hacc.encode]
  have htake : ts.val.take (State.numTimestamps { s with prevTimestamps := ts, elements := acc }) =
      s.prevTimestamps.val.take s.numTimestamps := hts
  rw [htake]

theorem State.Alike.medianTimestamp (h : s.Alike t) : t.medianTimestamp = s.medianTimestamp := by
  obtain ⟨ts,acc,hts,hacc⟩ := h
  have htake : ts.val.take (State.numTimestamps { s with prevTimestamps := ts, elements := acc }) =
      s.prevTimestamps.val.take s.numTimestamps := hts
  rw [State.medianTimestamp,State.medianTimestamp]
  simp only [htake]

theorem State.Alike.commitment (h : s.Alike t) (minerAddr : Address) (txns : List Transaction) (v2txns : List V2Transaction) :
    t.commitment c minerAddr txns v2txns = s.commitment c minerAddr txns v2txns := by
  simp only [State.commitment,State.commitmentLeaves,State.merkleLeafPreimage,h.encode]

theorem State.Alike.elements (h : s.Alike t) : s.elements.Alike t.elements := by
  obtain ⟨ts,acc,hts,hacc⟩ := h
  exact hacc

end States

namespace MidState

variable (c : Crypto)

theorem respects_update {f : MidState → MidState} (hf : ∀ ms t, f { ms with base := t } = { f ms with base := t }) :
    Respects Alike fun ms => .ok (f ms) := by
  refine Respects.pure ?_
  rintro ms _ ⟨t,h⟩
  have hself : f ms = { f ms with base := ms.base } := hf ms ms.base
  have hbase : (f ms).base = ms.base := by rw [hself]
  have halike : (f ms).Alike { f ms with base := t } := ⟨t,by rwa [hbase]⟩
  rwa [← hf ms t] at halike

theorem blind_childHeight : Blind Alike fun ms : MidState => ms.base.childHeight := by
  rintro ms _ ⟨_,⟨ts,acc,hts,hacc⟩⟩
  rfl

theorem blind_maturityHeight : Blind Alike fun ms : MidState => ms.base.maturityHeight := by
  rintro ms _ ⟨_,⟨ts,acc,hts,hacc⟩⟩
  rfl

section Records

theorem respects_recordSiacoinElement (id : SiacoinOutputID) (f : Option SiacoinElementDiff → SiacoinElementDiff) :
    Respects Alike fun ms => ms.recordSiacoinElement id f := by
  rintro ms _ ⟨t,h⟩
  exact Agree.after (RecordTable.upsert ms.elements id ms.sces fun d => .ok (f d)) fun _ => ⟨t,h⟩

theorem respects_recordSiafundElement (id : Hash256) (f : MidState → Option SiafundElementDiff → SiafundElementDiff)
    (hf : Blind Alike f) : Respects Alike fun ms => ms.recordSiafundElement id (f ms) := by
  rintro ms _ ⟨t,h⟩
  have hsame := hf ms _ ⟨t,h⟩
  simp only [hsame]
  exact Agree.after (RecordTable.upsert ms.elements id ms.sfes fun d => .ok (f _ d)) fun _ => ⟨t,h⟩

theorem respects_recordFileContractElement (id : Hash256) (f : Option FileContractElementDiff → FileContractElementDiff) :
    Respects Alike fun ms => ms.recordFileContractElement id f := by
  rintro ms _ ⟨t,h⟩
  exact Agree.after (RecordTable.upsert ms.elements id ms.fces fun d => .ok (f d)) fun _ => ⟨t,h⟩

theorem respects_recordV2FileContractElement (id : Hash256)
    (f : Option V2FileContractElementDiff → Outcome V2FileContractElementDiff) :
    Respects Alike fun ms => ms.recordV2FileContractElement id f := by
  rintro ms _ ⟨t,h⟩
  exact Agree.after (RecordTable.upsert ms.elements id ms.v2fces f) fun _ => ⟨t,h⟩

theorem respects_markSpent (id : Hash256) (txid : TransactionID) :
    Respects Alike fun ms => .ok (ms.markSpent id txid) := respects_update fun _ _ => rfl

end Records

section Elements

theorem respects_createSiacoinElement (id : SiacoinOutputID) (sco : SiacoinOutput) :
    Respects Alike fun ms => ms.createSiacoinElement id sco := by
  intro ms ms' h
  have hheight : ms.base.childHeight = ms'.base.childHeight := blind_childHeight ms ms' h
  simp only [createSiacoinElement,hheight]
  exact respects_recordSiacoinElement id _ ms ms' h

theorem respects_createImmatureSiacoinElement (id : SiacoinOutputID) (sco : SiacoinOutput) :
    Respects Alike fun ms => ms.createImmatureSiacoinElement id sco := by
  intro ms ms' h
  have hheight : ms.base.maturityHeight = ms'.base.maturityHeight := blind_maturityHeight ms ms' h
  simp only [createImmatureSiacoinElement,hheight]
  exact respects_recordSiacoinElement id _ ms ms' h

theorem respects_spendSiacoinElement (sce : SiacoinElement) (txid : TransactionID) :
    Respects Alike fun ms => ms.spendSiacoinElement sce txid :=
  (respects_recordSiacoinElement sce.id _).bind (respects_markSpent sce.id txid)

theorem respects_createSiafundElement (id : Hash256) (sfo : SiafundOutput) :
    Respects Alike fun ms => ms.createSiafundElement id sfo := by
  refine respects_recordSiafundElement id (fun ms d =>
    { siafundElement := ⟨id,StateElement.unassigned,sfo,ms.siafundTaxRevenue⟩
      created := true
      spent := d.elim false SiafundElementDiff.spent }) ?_
  rintro ms _ ⟨t,h⟩
  rfl

theorem respects_spendSiafundElement (sfe : SiafundElement) (txid : TransactionID) :
    Respects Alike fun ms => ms.spendSiafundElement sfe txid :=
  (respects_recordSiafundElement sfe.id (fun _ d =>
    { siafundElement := sfe, created := d.elim false SiafundElementDiff.created, spent := true })
    fun _ _ _ => rfl).bind (respects_markSpent sfe.id txid)

theorem respects_addRevenue (tax : Currency) : Respects Alike fun ms => do
    let revenue ← ms.siafundTaxRevenue.add tax
    return { ms with siafundTaxRevenue := revenue } := by
  refine Respects.observe (x := fun ms : MidState => ms.siafundTaxRevenue.add tax) ?_ fun revenue =>
    respects_update (f := fun ms => { ms with siafundTaxRevenue := revenue }) fun _ _ => rfl
  rintro ms _ ⟨t,h⟩
  rfl

theorem respects_createFileContractElement (id : Hash256) (fc : FileContract) :
    Respects Alike fun ms => ms.createFileContractElement id fc :=
  (respects_recordFileContractElement id _).bind (respects_addRevenue (State.fileContractTax fc))

theorem respects_resolveFileContractElement (fce : FileContractElement) (valid : Bool) (txid : TransactionID) :
    Respects Alike fun ms => ms.resolveFileContractElement fce valid txid :=
  (respects_recordFileContractElement fce.id _).bind (respects_markSpent fce.id txid)

theorem respects_createV2FileContractElement (id : Hash256) (fc : V2FileContract) :
    Respects Alike fun ms => ms.createV2FileContractElement id fc := by
  refine (respects_recordV2FileContractElement id _).bind ?_
  exact Respects.observe (x := fun _ => State.v2FileContractTax fc) (fun _ _ _ => rfl) respects_addRevenue

theorem respects_resolveV2FileContractElement (fce : V2FileContractElement) (res : V2FileContractResolutionType)
    (txid : TransactionID) : Respects Alike fun ms => ms.resolveV2FileContractElement fce res txid :=
  (respects_recordV2FileContractElement fce.id _).bind (respects_markSpent fce.id txid)

end Elements

section Transactions

theorem blind_siafundClaim (sfe : SiafundElement) : Blind Alike fun ms => ms.siafundClaim sfe := by
  rintro ms _ ⟨t,h⟩
  rfl

theorem foldl_applyArbitraryData (arbs : List Bytes) (ms : MidState) (t : State) :
    arbs.foldl applyArbitraryData { ms with base := t } = { arbs.foldl applyArbitraryData ms with base := t } := by
  induction arbs generalizing ms with
  | nil => rfl
  | cons arb arbs ih =>
    have hstep : applyArbitraryData { ms with base := t } arb = { applyArbitraryData ms arb with base := t } := by
      simp only [applyArbitraryData]
      split_ifs
      · rfl
      · rfl
    rw [List.foldl_cons,List.foldl_cons,hstep,ih]

theorem respects_applyTransaction (txn : Transaction) (ts : V1TransactionSupplement) :
    Respects Alike fun ms => ms.applyTransaction c txn ts := by
  refine (Respects.foldlM (fun sci => ?_) _).bind ?_
  · exact Respects.observe (x := fun ms : MidState => ms.siacoinElement ts sci.parentID)
      (by rintro ms _ ⟨t,h⟩; rfl) fun sce => respects_spendSiacoinElement sce _
  refine (Respects.foldIdx (fun i sco => respects_createSiacoinElement _ sco) _ 0).bind ?_
  refine (Respects.foldlM (fun sfi => ?_) _).bind ?_
  · refine Respects.observe (x := fun ms : MidState => ms.siafundElement ts sfi.parentID)
      (by rintro ms _ ⟨t,h⟩; rfl) fun sfe => ?_
    refine Respects.observe (blind_siafundClaim sfe) fun claim => ?_
    exact (respects_spendSiafundElement sfe _).bind (respects_createImmatureSiacoinElement _ _)
  refine (Respects.foldIdx (fun i sfo => respects_createSiafundElement _ sfo) _ 0).bind ?_
  refine (Respects.foldIdx (fun i fc => respects_createFileContractElement _ fc) _ 0).bind ?_
  refine (Respects.foldlM (fun fcr => ?_) _).bind ?_
  · exact Respects.observe (x := fun ms : MidState => ms.fileContractElement ts fcr.parentID _)
      (by rintro ms _ ⟨t,h⟩; rfl) fun fce => respects_recordFileContractElement _ _
  refine (Respects.foldlM (fun sp => ?_) _).bind ?_
  · refine Respects.observe (x := fun ms : MidState => ms.fileContractElement ts sp.parentID _)
      (by rintro ms _ ⟨t,h⟩; rfl) fun fce => ?_
    refine (respects_resolveFileContractElement fce true _).bind ?_
    exact Respects.foldIdx (fun i sco => respects_createImmatureSiacoinElement _ sco) _ 0
  · exact respects_update (f := fun ms => txn.arbitraryData.foldl applyArbitraryData ms) (foldl_applyArbitraryData _)

theorem respects_applyResolution (txid : TransactionID) (fcr : V2FileContractResolution) :
    Respects Alike fun ms => applyResolution c txid ms fcr := by
  refine (respects_resolveV2FileContractElement fcr.parent fcr.resolution txid).bind ?_
  generalize resolutionOutputs fcr.parent.v2FileContract fcr.resolution = outputs
  obtain ⟨renter,host,renewal⟩ := outputs
  refine Respects.bind (f := fun ms : MidState =>
    renewal.elim (.ok ms) (ms.createV2FileContractElement (v2RenewalID c fcr.parent.id))) (g := fun ms => do
      let ms ← ms.createImmatureSiacoinElement (v2ContractOutputID c fcr.parent.id 0) renter
      ms.createImmatureSiacoinElement (v2ContractOutputID c fcr.parent.id 1) host) ?_ ?_
  · cases renewal with
    | none => exact Respects.pure fun _ _ h => h
    | some fc => exact respects_createV2FileContractElement _ fc
  · exact (respects_createImmatureSiacoinElement _ renter).bind (respects_createImmatureSiacoinElement _ host)

theorem respects_applyUnsupported (txid : TransactionID) (txn : V2Transaction) :
    Respects Alike fun ms => ms.applyUnsupported c txid txn := by
  refine (Respects.foldlM (fun sfi => ?_) _).bind ?_
  · refine (respects_spendSiafundElement sfi.parent txid).bind ?_
    exact Respects.observe (blind_siafundClaim sfi.parent) fun claim => respects_createImmatureSiacoinElement _ _
  refine (Respects.foldIdx (fun i sfo => respects_createSiafundElement _ sfo) _ 0).bind ?_
  refine (Respects.foldIdx (fun i fc => respects_createV2FileContractElement _ fc) _ 0).bind ?_
  refine (Respects.foldlM (fun fcr => respects_recordV2FileContractElement _ _) _).bind ?_
  refine (Respects.foldlM (fun fcr => respects_applyResolution c txid fcr) _).bind ?_
  refine (Respects.foldIdx (fun i a => respects_update fun _ _ => rfl) _ 0).bind ?_
  cases txn.newFoundationAddress with
  | none => exact Respects.pure fun _ _ h => h
  | some a => exact respects_update fun _ _ => rfl

theorem Alike.noteCanaryProof (h : ms.Alike ms') (txn : V2Transaction) :
    (ms.noteCanaryProof txn).Alike (ms'.noteCanaryProof txn) := by
  obtain ⟨t,h⟩ := h
  simp only [MidState.noteCanaryProof]
  cases parseQdayEnvelope txn.arbitraryData with
  | error e => exact ⟨t,h⟩
  | ok e =>
    dsimp only
    split_ifs
    · exact ⟨t,h⟩
    · exact ⟨t,h⟩

theorem respects_applyV2Transaction (txn : V2Transaction) : Respects Alike fun ms => ms.applyV2Transaction c txn := by
  have hcoins : Respects Alike (fun ms : MidState => do
      let ms ← txn.siacoinInputs.foldlM (fun ms sci => ms.spendSiacoinElement sci.parent (txn.id c)) ms
      let ms ← foldIdx (fun i sco ms => ms.createSiacoinElement (siacoinOutputID c (txn.id c) i) sco) txn.siacoinOutputs 0 ms
      ms.applyUnsupported c (txn.id c) txn) := by
    refine (Respects.foldlM (fun sci : V2SiacoinInput => respects_spendSiacoinElement sci.parent _) _).bind ?_
    refine (Respects.foldIdx (fun i sco => respects_createSiacoinElement _ sco) _ 0).bind ?_
    exact respects_applyUnsupported c _ txn
  exact fun ms ms' h => hcoins _ _ (h.noteCanaryProof txn)

theorem respects_applyTransactions (txns : List Transaction) (tss : List V1TransactionSupplement) :
    Respects Alike (applyTransactions c txns tss) := by
  induction txns generalizing tss with
  | nil => exact Respects.pure fun _ _ h => h
  | cons txn txns ih =>
    cases tss with
    | nil => exact fun _ _ _ => rfl
    | cons ts tss => exact (respects_applyTransaction c txn ts).bind (ih tss)

theorem respects_expireFileContract (bid : BlockID) (fce : FileContractElement) :
    Respects Alike fun ms => expireFileContract c bid ms fce := by
  intro ms ms' h
  have hspends : ms'.spends = ms.spends := by
    obtain ⟨t,h⟩ := h
    rfl
  simp only [expireFileContract,hspends]
  split_ifs
  · exact h
  · exact (respects_resolveFileContractElement fce false bid).bind
      (Respects.foldIdx (fun i sco => respects_createImmatureSiacoinElement _ sco) _ 0) ms ms' h

theorem respects_applyBlock (b : Block) (bs : V1BlockSupplement) : Respects Alike fun ms => ms.applyBlock c b bs := by
  refine Respects.observe (x := fun ms : MidState => crashIf (ms.base.childHeight ≥ Network.v2Height ∧ _) _) ?_
    fun _ => ?_
  · intro ms ms' h
    have hheight : ms.base.childHeight = ms'.base.childHeight := blind_childHeight ms ms' h
    simp only [hheight]
  refine (respects_applyTransactions c b.transactions bs.transactions).bind ?_
  refine (Respects.foldlM (fun txn => respects_applyV2Transaction c txn) _).bind ?_
  refine (Respects.foldIdx (fun i sco => respects_createImmatureSiacoinElement _ sco) _ 0).bind ?_
  exact Respects.foldlM (fun fce => respects_expireFileContract c _ fce) _

end Transactions

end MidState

section Validation

variable {c : Crypto}

theorem MidState.Alike.validateParent (h : ms.Alike ms') (sci : V2SiacoinInput) :
    validateParent c ms' sci = validateParent c ms sci := by
  obtain ⟨t,h⟩ := h
  have hheight : t.childHeight = ms.base.childHeight := by
    obtain ⟨ts,acc,hts,hacc⟩ := h
    rfl
  simp only [QdayNode.validateParent,ElementAccumulator.containsUnspentSiacoinElement,
    ElementAccumulator.containsSpentSiacoinElement,h.elements.containsLeaf,validateEphemeralSiacoinElement,hheight]
  rfl

theorem MidState.Alike.validateSiacoinInputs (h : ms.Alike ms') (sigHash : Hash256) (scis : List V2SiacoinInput)
    (spent : List SiacoinOutputID) :
    validateSiacoinInputs c ms' sigHash scis spent = validateSiacoinInputs c ms sigHash scis spent := by
  have hmedian : ms'.base.medianTimestamp = ms.base.medianTimestamp := by
    obtain ⟨t,h⟩ := h
    exact h.medianTimestamp
  have hsame : ms'.spends = ms.spends ∧ ms'.base.childHeight = ms.base.childHeight ∧ ms'.base.index = ms.base.index := by
    obtain ⟨t,ts,acc,hts,hacc⟩ := h
    exact ⟨rfl,rfl,rfl⟩
  induction scis generalizing spent with
  | nil => rfl
  | cons sci scis ih =>
    simp only [QdayNode.validateSiacoinInputs,validateSiacoinInput,validateV2SpendPolicy,h.validateParent,hmedian,
      hsame.1,hsame.2.1,hsame.2.2,ih]

theorem MidState.Alike.validateV2Transaction (h : ms.Alike ms') (txn : V2Transaction) :
    validateV2Transaction c ms' txn = validateV2Transaction c ms txn := by
  have hinputs := h.validateSiacoinInputs (c := c)
  obtain ⟨t,ts,acc,hts,hacc⟩ := h
  unfold QdayNode.validateV2Transaction validateV2Siacoins
  rw [hinputs]
  rfl

theorem MidState.Alike.validateTransactions (h : ms.Alike ms') (hst : s.Alike t) (count : ℕ) (txns : List V2Transaction)
    (i : ℕ) : Agree Alike (validateTransactions c s count txns i ms) (validateTransactions c t count txns i ms') := by
  have hposition : ∀ i, isMarkerPosition t count i = isMarkerPosition s count i := by
    obtain ⟨ts,acc,hts,hacc⟩ := hst
    exact fun _ => rfl
  induction txns generalizing i ms ms' with
  | nil => exact agree_ok h
  | cons txn txns ih =>
    simp only [QdayNode.validateTransactions,h.validateV2Transaction,hposition]
    refine Agree.after _ fun _ => ?_
    exact (MidState.respects_applyV2Transaction c txn ms ms' h).bind fun _ _ h => ih h (i+1)

theorem State.Alike.newMidState (h : s.Alike t) : (newMidState s).Alike (newMidState t) := by
  obtain ⟨ts,acc,hts,hacc⟩ := h
  exact ⟨_,ts,acc,hts,hacc⟩

theorem State.Alike.validateHeader (h : s.Alike t) (bh : BlockHeader) : validateHeader c t bh = validateHeader c s bh := by
  have hmedian := h.medianTimestamp
  obtain ⟨ts,acc,hts,hacc⟩ := h
  rw [QdayNode.validateHeader,QdayNode.validateHeader,hmedian]
  rfl

theorem State.Alike.validateBlock (h : s.Alike t) (b : Block) (bs : V1BlockSupplement) :
    validateBlock c t b bs = validateBlock c s b bs := by
  have htxns := h.newMidState.validateTransactions (c := c) h b.v2Transactions.length b.v2Transactions 0
  have hheader := h.validateHeader (c := c)
  have hcommitment := h.commitment (c := c)
  refine (Outcome.agree_eq.mp ?_).symm
  obtain ⟨ts,acc,hts,hacc⟩ := h
  unfold QdayNode.validateBlock validateOrphan
  simp only [hheader,hcommitment]
  refine Agree.after (runIf _ _) fun _ => ?_
  refine Agree.after (_ >>= _) fun _ => ?_
  refine Agree.after (validateSupplement s b bs) fun _ => ?_
  refine Agree.after _ fun _ => ?_
  refine Agree.after _ fun _ => ?_
  exact htxns.bind fun _ _ _ => rfl

end Validation

section Application

variable {c : Crypto}

/-- With child height 0 the targets are zero and work cannot be added up; this is the only child
height at which no timestamp counts. -/
def State.Counted (s : State) : Prop := s.childHeight = 0 → s.depth.toNat + s.childTarget.toNat = 0

theorem updateTotalWork_crash (h : s.childHeight = 0) (hzero : s.depth.toNat + s.childTarget.toNat = 0) :
    updateTotalWork s = crash "division by zero" := by
  rw [updateTotalWork,if_pos (by rw [h]; decide),addTarget,crashIf,if_pos hzero]
  rfl

theorem State.Alike.advanceWork (h : s.Alike t) (hs : s.Counted) (bh : BlockHeader) (u : Time) :
    Agree (fun n n' => n' = { n with prevTimestamps := t.prevTimestamps, elements := t.elements } ∧
      n.prevTimestamps = s.prevTimestamps ∧ n.elements = s.elements ∧
      n.index.height = if bh.parentID = default then 0 else s.childHeight)
      (advanceWork c s bh u) (advanceWork c t bh u) := by
  obtain ⟨ts,acc,hts,hacc⟩ := h
  unfold QdayNode.advanceWork
  split_ifs with hgenesis
  · exact Agree.after (updateOakWork s) fun _ => ⟨rfl,rfl,rfl,rfl⟩
  by_cases hheight : s.childHeight = 0
  · have hcrash := updateTotalWork_crash hheight (hs hheight)
    have hcrash' : updateTotalWork { s with prevTimestamps := ts, elements := acc } = crash "division by zero" :=
      hcrash
    rw [hcrash,hcrash']
    exact rfl
  · have hfirst : ts.val.getD 0 default = s.prevTimestamps.val.getD 0 default := by
      have hpos : 0 < s.numTimestamps :=
        Nat.lt_min.mpr ⟨Nat.pos_of_ne_zero fun h => hheight (UInt64.toNat_inj.mp h),by decide⟩
      have hget := congrArg (fun l => l.getD 0 default) hts
      simpa [List.getD_eq_getElem?_getD,List.getElem?_take,hpos] using hget
    rw [hfirst]
    refine Agree.after (updateTotalWork s) fun _ => ?_
    refine Agree.after (adjustDifficulty s bh.timestamp u) fun _ => ?_
    exact Agree.after (updateOakWork s) fun _ => ⟨rfl,rfl,rfl,rfl⟩

theorem take_cons_congr {α : Type} {l l' : List α} {m : ℕ} (h : l.take m = l'.take m) (hk : k ≤ m + 1) (a : α) :
    (a :: l).take k = (a :: l').take k := by
  cases k with
  | zero => rfl
  | succ j =>
    have hj : min j m = j := min_eq_left (by omega)
    rw [List.take_succ_cons,List.take_succ_cons,← hj,← List.take_take,← List.take_take,h]

theorem State.Alike.applyHeader (h : s.Alike t) (hs : s.Counted) (bh : BlockHeader) (u : Time) :
    Agree State.Alike (applyHeader c s bh u) (applyHeader c t bh u) := by
  have hwork := h.advanceWork (c := c) hs bh u
  obtain ⟨ts,acc,hts,hacc⟩ := h
  refine Agree.after (crashIf (s.index.height > 0 ∧ s.index.id ≠ bh.parentID) _) fun _ => ?_
  refine hwork.bind ?_
  rintro n _ ⟨rfl,hprev,helements,hheight⟩
  -- the chain grows by one block at most, and so does the number of timestamps that count
  have hcount : min n.numTimestamps 11 ≤ s.numTimestamps + 1 := by
    rw [State.numTimestamps,State.childHeight,hheight]
    split_ifs
    · exact (min_le_left _ _).trans ((min_le_left _ _).trans (by simp))
    · refine (min_le_left _ _).trans ?_
      rw [State.numTimestamps,UInt64.toNat_add]
      simp only [Nat.min_def,UInt64.toNat_one]
      split_ifs <;> omega
  have htake := take_cons_congr hts hcount bh.timestamp
  rw [← List.take_take,← List.take_take] at htake
  rw [← helements] at hacc
  by_cases hv2 : n.index.height ≥ Network.v2Height
  · simp only [if_pos hv2]
    exact ⟨_,_,htake,hacc⟩
  · simp only [if_neg hv2]
    exact ⟨_,_,htake,hacc⟩

theorem State.Alike.withBlock (h : s.Alike t) (hms : ms.Alike ms')
    (hacc : acc.Alike acc') : (s.withBlock ms acc).Alike (t.withBlock ms' acc') := by
  obtain ⟨ts,_,hts,-⟩ := h
  obtain ⟨_,-⟩ := hms
  exact ⟨ts,acc',hts,hacc⟩

theorem MidState.Alike.diffs (h : ms.Alike ms') (bid : BlockID) : ms'.diffs bid = ms.diffs bid := by
  obtain ⟨_,_,_,_,_⟩ := h
  rfl

theorem State.Alike.applyBlock (h : s.Alike t) (hs : s.Counted) (b : Block) (bs : V1BlockSupplement) (u : Time) :
    Agree (fun r r' => r.1.Alike r'.1 ∧ r'.2 = r.2) (applyBlock c s b bs u) (applyBlock c t b bs u) := by
  have hindex : t.index = s.index := by
    obtain ⟨_,_,_,_⟩ := h
    rfl
  unfold QdayNode.applyBlock
  rw [hindex]
  refine Agree.after _ fun _ => ?_
  refine (MidState.respects_applyBlock c b bs _ _ h.newMidState).bind fun ms ms' hms => ?_
  simp only [hms.diffs]
  refine (applyBlock_accumulator_alike h.elements _ _).bind ?_
  rintro out out' ⟨hacc,heau,hadded⟩
  rw [heau,hadded]
  refine ((h.withBlock hms hacc).applyHeader hs (b.header c) u).bind fun next next' hnext => ?_
  have hproved : ms'.qdayProved = ms.qdayProved := by
    obtain ⟨_,_⟩ := hms
    rfl
  obtain ⟨ts,acc,hts,hacc⟩ := hnext
  rw [hproved]
  by_cases hday : next.qdayHeight = 0 ∧ ms.qdayProved = true
  · simp only [if_pos hday]
    exact ⟨⟨ts,acc,hts,hacc⟩,rfl⟩
  · simp only [if_neg hday]
    exact ⟨⟨ts,acc,hts,hacc⟩,rfl⟩

end Application

end QdayNode
