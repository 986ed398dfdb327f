import QdayNode.Consensus.Records

/-!
# What validation accepts

One inversion lemma for each validation function: the facts that hold whenever it
returns without an error.  Nothing after this module unfolds a validation function.
-/
namespace QdayNode
open ByteString Outcome

variable {sci : V2SiacoinInput}

/-- What an element is worth apart from its place in the accumulator. -/
structure Coin where
  id : SiacoinOutputID
  output : SiacoinOutput
  maturityHeight : UInt64
  deriving DecidableEq

def SiacoinElement.coin (e : SiacoinElement) : Coin := ⟨e.id, e.siacoinOutput, e.maturityHeight⟩

variable {c : Crypto} {ms : MidState}

section Sums

variable {vs : List Currency} {sum r : Currency}

theorem addAll_sum (h : addAll vs sum = .ok r) :
    r.toNat = sum.toNat + (vs.map Currency.toNat).sum := by
  induction vs generalizing sum with
  | nil =>
    obtain rfl : sum = r := by simpa [addAll] using h
    simp
  | cons v vs ih =>
    simp only [addAll,List.foldlM_cons,bind_eq_ok] at h
    obtain ⟨s,hs,h⟩ := h
    rw [ih h,← Currency.add_eq_ok.mp hs,List.map_cons,List.sum_cons,Nat.add_assoc]

theorem sumWithOverflow_sum {msg : String}
    (h : sumWithOverflow msg vs sum = .ok r) : r.toNat = sum.toNat + (vs.map Currency.toNat).sum := by
  induction vs generalizing sum with
  | nil =>
    obtain rfl : sum = r := by simpa [sumWithOverflow] using h
    simp
  | cons v vs ih =>
    obtain ⟨hval,hover⟩ := Currency.addWithOverflow_spec sum v
    simp only [sumWithOverflow] at h
    split_ifs at h with ho
    · cases h
    · have hlt : sum.toNat + v.toNat < 2^128 := not_le.mp fun hge => ho (hover.mpr hge)
      rw [ih h,hval,Nat.mod_eq_of_lt hlt,List.map_cons,List.sum_cons,Nat.add_assoc]

theorem sumWithOverflow_returns (msg : String) (vs : List Currency) (sum : Currency)
    (h : sum.toNat + (vs.map Currency.toNat).sum < 2^128) : ∃ r, sumWithOverflow msg vs sum = .ok r := by
  induction vs generalizing sum with
  | nil => exact ⟨sum,rfl⟩
  | cons v vs ih =>
    obtain ⟨hval,hover⟩ := Currency.addWithOverflow_spec sum v
    rw [List.map_cons,List.sum_cons] at h
    have hno : (sum.addWithOverflow v).2 ≠ true := fun ho => absurd (hover.mp ho) (by omega)
    simp only [sumWithOverflow,if_neg hno]
    refine ih _ ?_
    rw [hval,Nat.mod_eq_of_lt (by omega)]
    omega

end Sums

section Inputs

/-- An accepted input is spent by nobody else so far, and its parent is either an output created in
the block, named with its own value and height, or an unspent element of the accumulator. -/
structure InputAccepted (c : Crypto) (ms : MidState) (spent : List SiacoinOutputID) (sci : V2SiacoinInput) :
    Prop where
  unspent : ms.spends sci.parent.id = none
  notSeen : sci.parent.id ∉ spent
  source :
    (sci.parent.stateElement.leafIndex = unassignedLeafIndex ∧
      ∃ d, ms.record sci.parent.id = some d ∧ d.created = true ∧ d.siacoinElement.coin = sci.parent.coin) ∨
    (sci.parent.stateElement.leafIndex ≠ unassignedLeafIndex ∧
      ms.base.elements.containsUnspentSiacoinElement c sci.parent = true)

variable {sigHash : Hash256} {spent : List SiacoinOutputID}

theorem ephemeral_accepted (hheight : ¬ ms.base.childHeight < Network.v2Height)
    (h : validateEphemeralSiacoinElement ms sci = .ok ()) :
    ∃ d, ms.record sci.parent.id = some d ∧ d.created = true ∧ d.siacoinElement.coin = sci.parent.coin := by
  unfold validateEphemeralSiacoinElement at h
  cases hr : ms.record sci.parent.id with
  | none => simp [hr] at h
  | some d =>
    simp only [hr,bind_unit_eq_ok,rejectIf_eq_ok,runIf_eq_ok,not_not] at h
    obtain ⟨hcreated,h⟩ := h
    obtain ⟨hid,houtput,hmaturity⟩ := h hheight
    refine ⟨d,rfl,by simpa using hcreated,?_⟩
    rw [SiacoinElement.coin,SiacoinElement.coin,hid,houtput,hmaturity]

theorem input_accepted
    (hheight : ¬ ms.base.childHeight < Network.v2Height)
    (h : validateSiacoinInput c ms sigHash spent sci = .ok ()) : InputAccepted c ms spent sci := by
  simp only [validateSiacoinInput,bind_unit_eq_ok,rejectIf_eq_ok] at h
  obtain ⟨hspends,hseen,-,hsource,-⟩ := h
  refine ⟨by simpa using hspends,hseen,?_⟩
  unfold validateParent at hsource
  split_ifs at hsource with hephemeral hunspent hspent
  · exact .inl ⟨hephemeral,ephemeral_accepted hheight hsource⟩
  · exact .inr ⟨hephemeral,hunspent⟩
  · cases hsource
  · cases hsource

theorem inputs_accepted {scis : List V2SiacoinInput}
    (hheight : ¬ ms.base.childHeight < Network.v2Height)
    (h : validateSiacoinInputs c ms sigHash scis spent = .ok ()) :
    (scis.map fun sci => sci.parent.id).Nodup ∧ ∀ sci ∈ scis, InputAccepted c ms spent sci := by
  induction scis generalizing spent with
  | nil => simp
  | cons sci scis ih =>
    rw [validateSiacoinInputs,bind_unit_eq_ok] at h
    obtain ⟨hhead,hrest⟩ := h
    obtain ⟨hnodup,hall⟩ := ih hrest
    have hweaken : ∀ s ∈ scis, InputAccepted c ms spent s := fun s hs =>
      ⟨(hall s hs).unspent,fun hmem => (hall s hs).notSeen (List.mem_cons_of_mem _ hmem),(hall s hs).source⟩
    refine ⟨?_,?_⟩
    · rw [List.map_cons,List.nodup_cons]
      refine ⟨fun hmem => ?_,hnodup⟩
      obtain ⟨s,hs,heq⟩ := List.mem_map.mp hmem
      exact (hall s hs).notSeen (heq ▸ List.mem_cons_self)
    · exact List.forall_mem_cons.mpr ⟨input_accepted hheight hhead,hweaken⟩

end Inputs

section Transactions

/-- An accepted transfer. -/
structure TransferAccepted (c : Crypto) (ms : MidState) (txn : V2Transaction) : Prop where
  supported : qdayUnsupported txn = false
  inputs_ne : txn.siacoinInputs ≠ []
  inputs_le : txn.siacoinInputs.length ≤ 128
  outputs_le : txn.siacoinOutputs.length ≤ 128
  weight_le : v2TransactionWeight txn ≤ State.maxBlockWeight
  distinct : (txn.siacoinInputs.map fun sci => sci.parent.id).Nodup
  inputs : ∀ sci ∈ txn.siacoinInputs, InputAccepted c ms [] sci
  /-- Outputs and fee are covered by what the inputs are still worth. -/
  funded : ∃ values, inputValues ms txn.siacoinInputs = .ok values ∧
    (txn.siacoinOutputs.map fun sco => sco.value.toNat).sum + txn.minerFee.toNat ≤ (values.map Currency.toNat).sum
  /-- A canary proof is the first on the chain and in the block. -/
  firstProof : txn.isCanaryProof = true → ms.base.qdayHeight = 0 ∧ ms.qdayProved = false
  valid : validateV2Transaction c ms txn = .ok ()

variable {txn : V2Transaction}

theorem shape_accepted (h : validateQdayTransaction c ms txn = .ok ()) :
    qdayUnsupported txn = false ∧ txn.siacoinInputs ≠ [] ∧ txn.siacoinInputs.length ≤ 128 ∧
      txn.siacoinOutputs.length ≤ 128 := by
  rw [validateQdayTransaction,bind_eq_ok] at h
  obtain ⟨e,-,h⟩ := h
  simp only [bind_unit_eq_ok,rejectIf_eq_ok,not_or,not_lt] at h
  obtain ⟨hsupported,-,-,-,-,⟨hne,hin,-,hout,-⟩,-⟩ := h
  exact ⟨by simpa using hsupported,fun hnil => hne (by rw [hnil,List.length_nil]),hin,hout⟩

theorem canaryProof_accepted (h : validateQdayTransaction c ms txn = .ok ())
    (hproof : txn.isCanaryProof = true) : ms.base.qdayHeight = 0 ∧ ms.qdayProved = false := by
  rw [validateQdayTransaction,bind_eq_ok] at h
  obtain ⟨e,he,h⟩ := h
  simp only [bind_unit_eq_ok,rejectIf_eq_ok] at h
  obtain ⟨-,-,-,hrepeated,-⟩ := h
  have hkind : e.kind = qdayCanaryProof := by
    rw [V2Transaction.isCanaryProof,he] at hproof
    exact of_decide_eq_true hproof
  simp only [hkind,true_and,not_or,not_not,Bool.not_eq_true] at hrepeated
  exact ⟨hrepeated.1,hrepeated.2.1⟩

theorem siacoins_accepted (hheight : ¬ ms.base.childHeight < Network.v2Height)
    (h : validateV2Siacoins c ms txn = .ok ()) :
    (txn.siacoinInputs.map fun sci => sci.parent.id).Nodup ∧ (∀ sci ∈ txn.siacoinInputs, InputAccepted c ms [] sci) ∧
      ∃ values, inputValues ms txn.siacoinInputs = .ok values ∧
        (txn.siacoinOutputs.map fun sco => sco.value.toNat).sum + txn.minerFee.toNat ≤
          (values.map Currency.toNat).sum := by
  rw [validateV2Siacoins,bind_unit_eq_ok] at h
  obtain ⟨hinputs,h⟩ := h
  simp only [bind_eq_ok,rejectIf_eq_ok] at h
  obtain ⟨values,hvalues,inputSum,hin,-,-,outputs,hout,outputSum,hfee,hle⟩ := h
  obtain ⟨hdistinct,hall⟩ := inputs_accepted hheight hinputs
  refine ⟨hdistinct,hall,values,hvalues,?_⟩
  have hinputSum := addAll_sum hin
  have houtputs := addAll_sum hout
  have houtputSum := Currency.add_eq_ok.mp hfee
  rw [Currency.lt_iff,not_lt] at hle
  rw [List.map_map] at houtputs
  simp only [Function.comp_def,Currency.toNat_zeroCurrency] at hinputSum houtputs
  omega

theorem transfer_accepted (h : validateV2Transaction c ms txn = .ok ()) :
    ¬ ms.base.childHeight < Network.v2Height ∧ TransferAccepted c ms txn := by
  have hvalid := h
  simp only [validateV2Transaction,bind_unit_eq_ok,rejectIf_eq_ok] at h
  obtain ⟨hshape,hheight,-,-,hweight,hsiacoins⟩ := h
  obtain ⟨hsupported,hne,hin,hout⟩ := shape_accepted hshape
  obtain ⟨hdistinct,hinputs,hfunded⟩ := siacoins_accepted hheight hsiacoins
  exact ⟨hheight,hsupported,hne,hin,hout,UInt64.not_lt.mp hweight,hdistinct,hinputs,hfunded,
    canaryProof_accepted hshape,hvalid⟩

/-- A coinbase or work marker moves no coins. -/
structure IsMarker (txn : V2Transaction) : Prop where
  supported : qdayUnsupported txn = false
  inputs : txn.siacoinInputs = []
  outputs : txn.siacoinOutputs = []
  minerFee : txn.minerFee.toNat = 0
  kind : ∃ e, parseQdayEnvelope txn.arbitraryData = .ok e ∧ e.kind ≠ qdayCanaryProof

theorem isMarker_of_coinbase {minerAddr : Address}
    (h : isCoinbaseMarker c minerAddr txn = true) : IsMarker txn := by
  unfold isCoinbaseMarker at h
  cases he : parseQdayEnvelope txn.arbitraryData with
  | error e => simp [he] at h
  | ok e =>
    simp only [he,Bool.and_eq_true,decide_eq_true_iff,Bool.not_eq_true',Nat.add_eq_zero_iff,
      List.length_eq_zero_iff] at h
    obtain ⟨⟨⟨⟨⟨hkind,-⟩,-⟩,hin,hout⟩,hfee⟩,hsupported⟩ := h
    exact ⟨hsupported,hin,hout,(Currency.isZero_iff _).mp hfee,e,he,by rw [hkind]; decide⟩

theorem isMarker_of_work (h : isMiningWorkMarker txn = true) : IsMarker txn := by
  unfold isMiningWorkMarker at h
  cases he : parseQdayEnvelope txn.arbitraryData with
  | error e => simp [he] at h
  | ok e =>
    simp only [he,Bool.and_eq_true,decide_eq_true_iff,Bool.not_eq_true',Nat.add_eq_zero_iff,
      List.length_eq_zero_iff] at h
    obtain ⟨⟨⟨⟨⟨hkind,-⟩,-⟩,hin,hout⟩,hfee⟩,hsupported⟩ := h
    exact ⟨hsupported,hin,hout,(Currency.isZero_iff _).mp hfee,e,he,by rw [hkind]; decide⟩

/-- What a valid block may contain at the point where `ms` has been reached. -/
def Admitted (c : Crypto) (ms : MidState) (txn : V2Transaction) : Prop := IsMarker txn ∨ TransferAccepted c ms txn

theorem Admitted.supported (h : Admitted c ms txn) : qdayUnsupported txn = false := by
  cases h with
  | inl hmarker => exact hmarker.supported
  | inr htransfer => exact htransfer.supported

theorem Admitted.contains (h : Admitted c ms txn)
    (hsci : sci ∈ txn.siacoinInputs) (hassigned : sci.parent.stateElement.leafIndex ≠ unassignedLeafIndex) :
    ms.base.elements.containsUnspentSiacoinElement c sci.parent = true := by
  cases h with
  | inl hmarker =>
    rw [hmarker.inputs] at hsci
    exact absurd hsci List.not_mem_nil
  | inr htransfer =>
    rcases (htransfer.inputs sci hsci).source with ⟨hephemeral,-⟩ | ⟨-,hcontains⟩
    · exact absurd hephemeral hassigned
    · exact hcontains

end Transactions

section Blocks

variable {s : State} {b : Block} {bs : V1BlockSupplement}

theorem childHeight_of_median {t : Time} (h : s.medianTimestamp = .ok t) : ¬ s.childHeight < Network.v2Height := by
  intro hlt
  have hzero : s.childHeight.toNat = 0 := by
    have := UInt64.lt_iff_toNat_lt.mp hlt
    rw [Network.v2Height,UInt64.toNat_one] at this
    omega
  have hnone : s.prevTimestamps.val.take s.numTimestamps = [] := by
    rw [State.numTimestamps,hzero]
    rfl
  rw [State.medianTimestamp,hnone] at h
  cases h

theorem header_accepted {bh : BlockHeader} (h : validateHeader c s bh = .ok ()) :
    bh.parentID = s.index.id ∧ ¬ s.childHeight < Network.v2Height := by
  rw [validateHeader,bind_unit_eq_ok,bind_eq_ok] at h
  obtain ⟨hparent,t,ht,-⟩ := h
  exact ⟨by simpa using hparent,childHeight_of_median ht⟩

theorem payouts_accepted (htxns : b.transactions = []) (h : validateMinerPayouts s b = .ok ()) :
    (b.minerPayouts.map fun mp => mp.value.toNat).sum =
      s.blockReward.toNat + (b.v2Transactions.map fun txn => txn.minerFee.toNat).sum := by
  rw [validateMinerPayouts,htxns] at h
  simp only [List.flatMap_nil,sumFees,ok_bind,bind_eq_ok,rejectIf_eq_ok,not_not] at h
  obtain ⟨expected,hexpected,-,-,sum,hsum,rfl⟩ := h
  have hexpected := sumWithOverflow_sum hexpected
  have hsum := sumWithOverflow_sum hsum
  rw [List.map_map] at hexpected hsum
  simp only [Function.comp_def,Currency.toNat_zeroCurrency] at hexpected hsum
  omega

/-- The transactions at marker positions are markers. -/
theorem markers_accepted (h : validateQdayBlockMarkers c s b = .ok ()) :
    (∃ payout, b.minerPayouts = [payout]) ∧ b.transactions = [] ∧ b.v2.isSome = true ∧
      ∀ pre txn post, b.v2Transactions = pre ++ txn :: post →
        isMarkerPosition s b.v2Transactions.length pre.length = true → IsMarker txn := by
  unfold validateQdayBlockMarkers at h
  cases hv2 : b.v2 with
  | none => simp [hv2] at h
  | some v2 =>
    match hpay : b.minerPayouts, h with
    | [], h => simp [hv2] at h
    | _ :: _ :: _, h => simp [hv2] at h
    | [payout], h =>
      have htxns : b.v2Transactions = v2.transactions := by rw [Block.v2Transactions,hv2]
      cases hlist : v2.transactions with
      | nil => simp [hv2,hlist] at h
      | cons first rest =>
        simp only [hv2,hlist,bind_unit_eq_ok,rejectIf_eq_ok,runIf_eq_ok,not_not,
          Bool.not_eq_false] at h
        obtain ⟨hnone,hfirst,hlast⟩ := h
        refine ⟨⟨payout,rfl⟩,List.length_eq_zero_iff.mp hnone,rfl,?_⟩
        intro pre txn post hsplit hpos
        rw [htxns,hlist] at hsplit hpos
        cases pre with
        | nil =>
          obtain ⟨rfl,-⟩ := List.cons.inj hsplit
          exact isMarker_of_coinbase hfirst
        | cons p pre =>
          rw [List.cons_append] at hsplit
          obtain ⟨-,hrest⟩ := List.cons.inj hsplit
          rw [hrest] at hpos hlast
          simp only [isMarkerPosition,List.length_cons,List.length_append,Bool.or_eq_true,Bool.and_eq_true,
            decide_eq_true_iff,Nat.add_eq_zero_iff] at hpos
          obtain hpos | ⟨hactive,hlen⟩ := hpos
          · omega
          · obtain rfl : post = [] := List.length_eq_zero_iff.mp (by omega)
            have hwork := hlast hactive
            rw [List.getLast?_concat] at hwork
            exact isMarker_of_work (by simpa using hwork)

/-- The transactions of the block, each admitted where the ones before it have led. -/
theorem run_accepted {count : ℕ} {txns : List V2Transaction} {i : ℕ} {ms' : MidState}
    (hmarker : ∀ pre txn post, txns = pre ++ txn :: post →
      isMarkerPosition s count (i + pre.length) = true → IsMarker txn)
    (h : validateTransactions c s count txns i ms = .ok ms') :
    ∀ pre txn post ms', txns = pre ++ txn :: post → pre.foldlM (MidState.applyV2Transaction c) ms = .ok ms' →
      Admitted c ms' txn := by
  induction txns generalizing i ms with
  | nil =>
    intro pre txn post _ hsplit
    simp at hsplit
  | cons first rest ih =>
    rw [validateTransactions,bind_unit_eq_ok,bind_eq_ok,runIf_eq_ok] at h
    obtain ⟨hvalid,ms₁,happly,hrest⟩ := h
    intro pre txn post ms₂ hsplit hrun
    cases pre with
    | nil =>
      obtain ⟨rfl,rfl⟩ := List.cons.inj hsplit
      obtain rfl : ms = ms₂ := by simpa using hrun
      cases hpos : isMarkerPosition s count i with
      | true => exact .inl (hmarker [] first rest rfl hpos)
      | false => exact .inr (transfer_accepted (hvalid hpos)).2
    | cons p pre =>
      obtain ⟨rfl,rfl⟩ := List.cons.inj hsplit
      rw [List.foldlM_cons,happly,ok_bind] at hrun
      refine ih (fun pre' txn' post' hsplit' hpos => ?_) hrest pre txn post ms₂ rfl hrun
      refine hmarker (first :: pre') txn' post' (by rw [hsplit',List.cons_append]) ?_
      rwa [List.length_cons,Nat.add_comm pre'.length 1,← Nat.add_assoc]

/-- A block that passes `ValidateBlock`. -/
structure BlockAccepted (c : Crypto) (s : State) (b : Block) (bs : V1BlockSupplement) : Prop where
  childHeight : ¬ s.childHeight < Network.v2Height
  parentID : b.parentID = s.index.id
  transactions : b.transactions = []
  supplement : bs.transactions = [] ∧ bs.expiringFileContracts = []
  hasV2 : b.v2.isSome = true
  weight_le : blockWeight b ≤ State.maxBlockWeight
  payout : ∃ payout, b.minerPayouts = [payout] ∧
    payout.value.toNat = s.blockReward.toNat + (b.v2Transactions.map fun txn => txn.minerFee.toNat).sum
  admitted : ∀ pre txn post ms, b.v2Transactions = pre ++ txn :: post →
    pre.foldlM (MidState.applyV2Transaction c) (newMidState s) = .ok ms → Admitted c ms txn

theorem block_accepted (h : validateBlock c s b bs = .ok ()) : BlockAccepted c s b bs := by
  simp only [validateBlock,validateOrphan,validateSupplement,bind_unit_eq_ok,rejectIf_eq_ok,
    runIf_eq_ok] at h
  obtain ⟨hmarkers,⟨hweight,hpayouts,hheader,-⟩,⟨hsupplement,-⟩,-,-,hrun⟩ := h
  obtain ⟨ms,hrun,-⟩ := bind_eq_ok.mp hrun
  obtain ⟨hparent,hheight⟩ := header_accepted hheader
  have hpos : s.childHeight > 0 := by
    rw [UInt64.lt_iff_toNat_lt,Network.v2Height,UInt64.toNat_one] at hheight
    refine UInt64.lt_iff_toNat_lt.mpr ?_
    rw [UInt64.toNat_zero]
    omega
  obtain ⟨⟨payout,hpayout⟩,htxns,hv2,hmarker⟩ := markers_accepted (hmarkers hpos)
  have hempty : bs.transactions.length = 0 ∧ bs.expiringFileContracts.length = 0 := by
    by_contra hne
    exact hsupplement ⟨UInt64.not_lt.mp hheight,by omega⟩
  refine ⟨hheight,hparent,htxns,⟨List.length_eq_zero_iff.mp hempty.1,List.length_eq_zero_iff.mp hempty.2⟩,hv2,
    UInt64.not_lt.mp hweight,⟨payout,hpayout,?_⟩,run_accepted (fun pre txn post hsplit hat => ?_) hrun⟩
  · have hsum := payouts_accepted htxns hpayouts
    rw [hpayout,List.map_singleton,List.sum_singleton] at hsum
    exact hsum
  · rw [Nat.zero_add] at hat
    exact hmarker pre txn post hsplit hat

/-- Induction over the transactions of a valid block: what every admitted transaction keeps holds
at the end, and the block's transactions are applied without a panic. -/
theorem BlockAccepted.induct (hb : BlockAccepted c s b bs) {P : List V2Transaction → MidState → Prop}
    (hinit : P [] (newMidState s))
    (hstep : ∀ pre txn post ms, b.v2Transactions = pre ++ txn :: post → P pre ms → Admitted c ms txn →
      ∃ ms', ms.applyV2Transaction c txn = .ok ms' ∧ P (pre ++ [txn]) ms') :
    ∃ ms, b.v2Transactions.foldlM (MidState.applyV2Transaction c) (newMidState s) = .ok ms ∧ P b.v2Transactions ms := by
  obtain ⟨ms,hrun,-,hP⟩ := foldlM_induct (f := MidState.applyV2Transaction c) (l := b.v2Transactions)
    (P := fun pre ms => pre.foldlM (MidState.applyV2Transaction c) (newMidState s) = .ok ms ∧ P pre ms)
    (fun pre txn post ms hsplit hpre => by
      obtain ⟨ms',happly,hP⟩ := hstep pre txn post ms hsplit hpre.2 (hb.admitted pre txn post ms hsplit hpre.1)
      refine ⟨ms',happly,?_,hP⟩
      rw [List.foldlM_append,hpre.1,ok_bind,List.foldlM_cons,happly]
      rfl)
    ⟨rfl,hinit⟩
  exact ⟨ms,hrun,hP⟩

end Blocks

end QdayNode
