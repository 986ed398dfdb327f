import QdayNode.Manager.Runs

/-!
# The weight of the transaction pool

The pool keeps the sum of the weights of its transactions.  A transaction that becomes
invalid leaves without being taken off the sum, so the sum may be too large, but it is
never too small: after each revalidation the transactions of the pool weigh less than
the limit, and a set that is taken back leaves the pool as it was.
-/
namespace QdayNode
open ByteString Procedure Outcome

variable {c : Crypto} {txn : V2Transaction} {txns txns' : List V2Transaction}

def totalWeight (txns : List V2Transaction) : ℕ := (txns.map fun txn => (v2TransactionWeight txn).toNat).sum

@[simp] theorem totalWeight_nil : totalWeight [] = 0 := rfl

@[simp] theorem totalWeight_cons (txn : V2Transaction) (txns : List V2Transaction) :
    totalWeight (txn :: txns) = (v2TransactionWeight txn).toNat + totalWeight txns := rfl

@[simp] theorem totalWeight_append (txns txns' : List V2Transaction) :
    totalWeight (txns ++ txns') = totalWeight txns + totalWeight txns' := by
  simp [totalWeight]

theorem totalWeight_map {f : V2Transaction → V2Transaction} (hf : ∀ txn, v2TransactionWeight (f txn) = v2TransactionWeight txn)
    (txns : List V2Transaction) : totalWeight (txns.map f) = totalWeight txns := by
  rw [totalWeight,List.map_map]
  simp only [Function.comp_def,hf]
  rfl

section Weights

theorem length_sansProof_input (sci : V2SiacoinInput) (se : StateElement) (height : UInt64) :
    ({ sci with parent.stateElement := se, parent.maturityHeight := height } : V2SiacoinInput).sansProof.encode.length =
      sci.sansProof.encode.length := by
  simp [V2SiacoinInput.sansProof,V2SiacoinInput.encode,SiacoinElement.encode,StateElement.sansProof,StateElement.encode]

theorem length_sansProof_siafund (sfi : V2SiafundInput) (se : StateElement) :
    ({ sfi with parent.stateElement := se } : V2SiafundInput).sansProof.encode.length = sfi.sansProof.encode.length := by
  simp [V2SiafundInput.sansProof,V2SiafundInput.encode,SiafundElement.encode,StateElement.sansProof,StateElement.encode]

theorem length_sansProof_revision (fcr : V2FileContractRevision) (se : StateElement) :
    ({ fcr with parent.stateElement := se } : V2FileContractRevision).sansProof.encode.length =
      fcr.sansProof.encode.length := by
  simp [V2FileContractRevision.sansProof,V2FileContractRevision.encode,V2FileContractElement.encode,
    StateElement.sansProof,StateElement.encode]

theorem length_sansProof_resolution (fcr : V2FileContractResolution) (se : StateElement) :
    ({ fcr with parent.stateElement := se } : V2FileContractResolution).sansProof.encode.length =
      fcr.sansProof.encode.length := by
  simp [V2FileContractResolution.sansProof,V2FileContractResolution.encode,V2FileContractElement.encode,
    StateElement.sansProof,StateElement.encode]

theorem length_sansProof_resolutionType (fcr : V2FileContractResolution) (f : ℕ → StateElement → StateElement) (s : ℕ) :
    ({ fcr with resolution := (resolutionTypePlaces c).update f s fcr.resolution } :
      V2FileContractResolution).sansProof.encode.length = fcr.sansProof.encode.length := by
  obtain ⟨parent,resolution⟩ := fcr
  cases resolution <;> simp [resolutionTypePlaces,V2FileContractResolution.sansProof,V2FileContractResolution.encode,
    V2FileContractResolutionType.encode,V2StorageProof.encode,ChainIndexElement.encode,StateElement.sansProof,StateElement.encode]

/-- Writing to the elements of a transaction leaves its weight as it is. -/
theorem weight_update (f : ℕ → StateElement → StateElement) (s : ℕ) (txn : V2Transaction) :
    v2TransactionWeight ((transactionPlaces c).update f s txn) = v2TransactionWeight txn := by
  have hinputs := Places.length_flatMap_updateList (P := siacoinInputPlaces c) (g := fun sci => sci.sansProof.encode)
    fun f s sci => length_sansProof_input sci _ sci.parent.maturityHeight
  have hsiafunds := Places.length_flatMap_updateList (P := siafundInputPlaces c) (g := fun sfi => sfi.sansProof.encode)
    fun f s sfi => length_sansProof_siafund sfi _
  have hrevisions := Places.length_flatMap_updateList (P := revisionPlaces c) (g := fun fcr => fcr.sansProof.encode)
    fun f s fcr => length_sansProof_revision fcr _
  have hresolutions := Places.length_flatMap_updateList (P := resolutionPlaces c) (g := fun fcr => fcr.sansProof.encode)
    fun f s fcr => (length_sansProof_resolutionType (c := c) { fcr with parent.stateElement := f s fcr.parent.stateElement } f _).trans
      (length_sansProof_resolution fcr _)
  rw [v2TransactionWeight,v2TransactionWeight]
  congr 1
  simp only [V2Transaction.weighed,transactionPlaces,Places.within,Places.prod,Places.list,List.length_append,hinputs,
    hsiafunds,hrevisions,hresolutions]

theorem weight_confirmAt (created : List (Hash256 × StateElement)) (height : UInt64) (txn : V2Transaction) :
    v2TransactionWeight (txn.confirmAt created height) = v2TransactionWeight txn := by
  have hinput : ∀ sci : V2SiacoinInput, (sci.confirmAt created height).sansProof.encode.length = sci.sansProof.encode.length := by
    intro sci
    unfold V2SiacoinInput.confirmAt
    dsimp only
    split_ifs
    · exact length_sansProof_input sci _ _
    · exact length_sansProof_input sci _ sci.parent.maturityHeight
  rw [v2TransactionWeight,v2TransactionWeight]
  congr 1
  simp only [V2Transaction.weighed,V2Transaction.confirmAt,V2Transaction.replaceElements,List.length_append,
    List.length_flatMap,List.map_map,Function.comp_def,hinput,length_sansProof_siafund,length_sansProof_revision,
    length_sansProof_resolution]

theorem weight_ephemeralHeights (height : UInt64) (txns : List V2Transaction) :
    totalWeight (updateQdayEphemeralHeights txns height) = totalWeight txns := by
  refine totalWeight_map (fun txn => ?_) txns
  have hinput : ∀ sci : V2SiacoinInput, (if sci.parent.stateElement.leafIndex = unassignedLeafIndex then
      { sci with parent.maturityHeight := height } else sci).sansProof.encode.length = sci.sansProof.encode.length := by
    intro sci
    split_ifs
    · exact length_sansProof_input sci sci.parent.stateElement height
    · rfl
  rw [v2TransactionWeight,v2TransactionWeight]
  congr 1
  simp only [V2Transaction.weighed,List.length_append,List.length_flatMap,List.map_map,Function.comp_def,hinput]

theorem updateTxnProofs_weight {updateElementProof : StateElement → Outcome StateElement} {numLeaves : UInt64}
    {txn' : V2Transaction} (h : updateTxnProofs c txn updateElementProof numLeaves = .ok (some txn')) :
    v2TransactionWeight txn' = v2TransactionWeight txn := by
  simp only [updateTxnProofs,bind_eq_ok,pure_eq_ok,Option.map_eq_some_iff] at h
  obtain ⟨updated,-,es,-,rfl⟩ := h
  exact weight_update _ 0 txn

theorem updateAllProofs_weight {updateElementProof : StateElement → Outcome StateElement} {numLeaves : UInt64}
    (h : updateAllProofs c updateElementProof numLeaves txns = .ok txns') :
    totalWeight txns' ≤ totalWeight txns := by
  induction txns generalizing txns' with
  | nil =>
    obtain rfl := Except.ok.inj h
    exact le_rfl
  | cons txn txns ih =>
    simp only [updateAllProofs,bind_eq_ok,pure_eq_ok] at h
    obtain ⟨updated,hupdate,rest,hrest,rfl⟩ := h
    have hle := ih hrest
    cases updated with
    | none =>
      simp only [Option.toList_none,List.nil_append,totalWeight_cons]
      omega
    | some txn' =>
      have hsame := updateTxnProofs_weight hupdate
      simp only [Option.toList_some,List.singleton_append,totalWeight_cons,hsame]
      omega

end Weights

section Pool

variable {pool pool' : TxPool}

def TxPool.Weighed (pool : TxPool) : Prop := totalWeight pool.v2txns ≤ pool.weight.toNat

theorem applyPoolUpdate_weighed {cau : ApplyUpdate} {cs : State} (h : applyPoolUpdate c cau cs pool = .ok pool')
    (hpool : pool.Weighed) : pool'.Weighed := by
  simp only [applyPoolUpdate,bind_eq_ok,pure_eq_ok] at h
  obtain ⟨v2txns,hupdate,rfl⟩ := h
  have hle := updateAllProofs_weight hupdate
  rw [totalWeight_map (weight_confirmAt _ _)] at hle
  exact hle.trans hpool

variable {fts : List FeeTxn} {r r' : Revalidated}

theorem Restored.add_weight {r r' : Restored} (h : r.add c txn = some r')
    (hr : totalWeight r.txns = r.weight.toNat ∧ r.weight ≤ txpoolMaxWeight) :
    totalWeight r'.txns = r'.weight.toNat ∧ r'.weight ≤ txpoolMaxWeight := by
  obtain ⟨hsum,hle⟩ := hr
  rw [Restored.add] at h
  split_ifs at h with hknown hfull
  · obtain rfl := Option.some.inj h
    exact ⟨hsum,hle⟩
  · obtain rfl := Option.some.inj h
    have hmax : txpoolMaxWeight.toNat = 20000000 := by decide
    rw [UInt64.le_iff_toNat_le] at hle
    rw [gt_iff_lt,UInt64.lt_iff_toNat_lt,UInt64.toNat_sub_of_le _ _ (by rwa [UInt64.le_iff_toNat_le])] at hfull
    have hadd : (r.weight + v2TransactionWeight txn).toNat = r.weight.toNat + (v2TransactionWeight txn).toNat := by
      rw [UInt64.toNat_add]
      omega
    refine ⟨?_,?_⟩
    · rw [totalWeight_append,totalWeight_cons,totalWeight_nil,hsum,hadd]
      rfl
    · rw [UInt64.le_iff_toNat_le,hadd]
      omega

theorem Restored.addAll_weight {r : Restored} (txns : List V2Transaction)
    (hr : totalWeight r.txns = r.weight.toNat ∧ r.weight ≤ txpoolMaxWeight) :
    totalWeight (r.addAll c txns).txns = (r.addAll c txns).weight.toNat ∧ (r.addAll c txns).weight ≤ txpoolMaxWeight := by
  induction txns generalizing r with
  | nil => exact hr
  | cons txn txns ih =>
    rw [Restored.addAll]
    cases hadd : r.add c txn with
    | none => exact hr
    | some r' => exact ih (Restored.add_weight hadd hr)

theorem restoreQdayPool_weighed (txns : List V2Transaction) (pool : TxPool) : (restoreQdayPool c txns pool).Weighed := by
  have hstart : totalWeight ([] : List V2Transaction) = (0 : UInt64).toNat ∧ 0 ≤ txpoolMaxWeight := ⟨rfl,by decide⟩
  exact (Restored.addAll_weight pool.v2txns (Restored.addAll_weight (r := ⟨[],0⟩) txns hstart)).1.le

theorem feeTxns_weight {n : ℕ} (h : feeTxns txns n = .ok fts) :
    fts.map FeeTxn.txn = txns ∧ ∀ ft ∈ fts, ft.weight = v2TransactionWeight ft.txn := by
  induction txns generalizing n fts with
  | nil =>
    obtain rfl := Except.ok.inj h
    simp
  | cons txn txns ih =>
    simp only [feeTxns,bind_eq_ok,pure_eq_ok] at h
    obtain ⟨rate,-,rest,hrest,rfl⟩ := h
    obtain ⟨hmap,hweight⟩ := ih hrest
    exact ⟨by rw [List.map_cons,hmap],List.forall_mem_cons.mpr ⟨rfl,hweight⟩⟩

theorem dropCheapest_weight {weight : UInt64} (hfts : ∀ ft ∈ fts, ft.weight = v2TransactionWeight ft.txn)
    (hsum : totalWeight (fts.map FeeTxn.txn) ≤ weight.toNat) :
    totalWeight ((dropCheapest fts weight).map FeeTxn.txn) < txpoolMaxWeight.toNat := by
  have hmax : txpoolMaxWeight.toNat = 20000000 := by decide
  induction fts generalizing weight with
  | nil =>
    simp only [dropCheapest,List.map_nil,totalWeight_nil]
    omega
  | cons ft fts ih =>
    obtain ⟨hft,hfts⟩ := List.forall_mem_cons.mp hfts
    rw [List.map_cons,totalWeight_cons,← hft] at hsum
    rw [dropCheapest]
    split_ifs with hfull
    · refine ih hfts ?_
      rw [UInt64.toNat_sub_of_le _ _ (by rw [UInt64.le_iff_toNat_le]; omega)]
      omega
    · have hquarter : (txpoolMaxWeight * 3 / 4).toNat = 15000000 := by decide
      rw [ge_iff_le,UInt64.le_iff_toNat_le] at hfull
      rw [List.map_cons,totalWeight_cons,← hft]
      omega

theorem totalWeight_perm (h : txns.Perm txns') : totalWeight txns = totalWeight txns' :=
  (h.map _).sum_eq

theorem evict_weight {v2txns : List V2Transaction} (h : evict pool = .ok v2txns) (hpool : pool.Weighed) :
    totalWeight v2txns < txpoolMaxWeight.toNat := by
  rw [evict] at h
  split_ifs at h with hfull
  · simp only [bind_eq_ok,pure_eq_ok] at h
    obtain ⟨fts,hfts,rfl⟩ := h
    obtain ⟨hmap,hweight⟩ := feeTxns_weight hfts
    have hsorted := List.perm_insertionSort (fun a b : FeeTxn => a.rate.toNat ≤ b.rate.toNat) fts
    rw [totalWeight_perm ((List.perm_insertionSort _ _).map FeeTxn.txn)]
    refine dropCheapest_weight (fun ft hft => hweight ft (hsorted.subset hft)) ?_
    rw [totalWeight_perm (hsorted.map FeeTxn.txn),hmap]
    exact hpool
  · obtain rfl := Except.ok.inj h
    rw [ge_iff_le,UInt64.le_iff_toNat_le,not_le] at hfull
    exact hpool.trans_lt hfull

def Revalidated.push (c : Crypto) (r : Revalidated) (ms : MidState) (txn : V2Transaction) : Revalidated :=
  ⟨r.txns ++ [txn], r.indices.insert (txn.id c) r.txns.length, ms, r.weight + v2TransactionWeight txn⟩

theorem Revalidated.add_inv (h : r.add c txn = .ok r') :
    r' = r ∨ ∃ ms, r.indices.lookup (txn.id c) = none ∧ validateV2Transaction c r.ms txn = .ok () ∧
      r.ms.applyV2Transaction c txn = .ok ms ∧ r' = r.push c ms txn := by
  rw [Revalidated.add] at h
  split_ifs at h with hknown
  · exact .inl (Except.ok.inj h).symm
  · rw [bind_eq_ok] at h
    obtain ⟨verdict,hverdict,h⟩ := h
    cases verdict with
    | none => exact .inl (Except.ok.inj h).symm
    | some u =>
      rw [attempt_eq_some] at hverdict
      simp only [bind_eq_ok,pure_eq_ok] at h
      obtain ⟨ms,happly,rfl⟩ := h
      exact .inr ⟨ms,by simpa using hknown,hverdict,happly,rfl⟩

theorem addAll_weight (hfold : txns.foldlM (Revalidated.add c) r = .ok r')
    (hr : totalWeight r.txns = r.weight.toNat) (hroom : totalWeight r.txns + totalWeight txns < txpoolMaxWeight.toNat) :
    totalWeight r'.txns = r'.weight.toNat ∧ r'.weight < txpoolMaxWeight := by
  induction txns generalizing r with
  | nil =>
    obtain rfl := Except.ok.inj hfold
    exact ⟨hr,by rw [UInt64.lt_iff_toNat_lt,← hr]; simpa using hroom⟩
  | cons txn txns ih =>
    rw [List.foldlM_cons,bind_eq_ok] at hfold
    obtain ⟨r₁,hadd,hfold⟩ := hfold
    rw [totalWeight_cons] at hroom
    rcases Revalidated.add_inv hadd with rfl | ⟨ms,-,-,-,rfl⟩
    · exact ih hfold hr (by omega)
    · have hmax : txpoolMaxWeight.toNat = 20000000 := by decide
      have hsum : totalWeight (r.push c ms txn).txns = totalWeight r.txns + (v2TransactionWeight txn).toNat := by
        simp [Revalidated.push]
      refine ih hfold ?_ (by omega)
      rw [hsum,hr,Revalidated.push,UInt64.toNat_add]
      omega

theorem revalidatePool_weighed {tip : State} (h : revalidatePool c tip pool = .ok pool') (hpool : pool.Weighed) :
    pool'.Weighed ∧ pool'.weight < txpoolMaxWeight := by
  rw [revalidatePool] at h
  split_ifs at h with hkept
  · obtain rfl := Except.ok.inj h
    exact ⟨hpool,hkept.2⟩
  · simp only [bind_eq_ok,pure_eq_ok] at h
    obtain ⟨v2txns,hevict,r,hfold,rfl⟩ := h
    have hroom := evict_weight hevict hpool
    rw [← weight_ephemeralHeights (tip.index.height + 1)] at hroom
    obtain ⟨hsum,hlt⟩ := addAll_weight hfold rfl (by simpa using hroom)
    exact ⟨hsum.le,hlt⟩

end Pool

section Adding

variable {start pool : TxPool} {added : List V2Transaction}

/-- Two pools with the same transactions at the same positions and with the same weight. -/
structure TxPool.Same (start pool : TxPool) : Prop where
  v2txns : pool.v2txns = start.v2txns
  indices : ∀ id, pool.indices.lookup id = start.indices.lookup id
  weight : pool.weight = start.weight

/-- The pool while a set is being added: what it started with, and the transactions `added` that it did not have. -/
structure TxPool.Adding (c : Crypto) (start : TxPool) (added : List V2Transaction) (pool : TxPool) : Prop where
  v2txns : pool.v2txns = start.v2txns ++ added
  new : ∀ txn ∈ added, start.indices.lookup (txn.id c) = none
  indices : ∀ id, id ∉ added.map (V2Transaction.id c) → pool.indices.lookup id = start.indices.lookup id
  weight : pool.weight = start.weight + (added.map v2TransactionWeight).sum
  light : ∀ txn ∈ added, v2TransactionWeight txn ≤ State.maxBlockWeight

theorem TxPool.Adding.refl (c : Crypto) (pool : TxPool) : pool.Adding c [] pool where
  v2txns := by rw [List.append_nil]
  new := by simp
  indices := fun _ _ => rfl
  weight := by simp
  light := by simp

theorem TxPool.Adding.push (h : start.Adding c added pool) (hnew : pool.indices.lookup (txn.id c) = none)
    (hlight : v2TransactionWeight txn ≤ State.maxBlockWeight) (ms : MidState) :
    start.Adding c (added ++ [txn]) (pool.push c ms txn) where
  v2txns := by rw [TxPool.push,h.v2txns,List.append_assoc]
  new := by
    intro txn' htxn'
    rcases List.mem_append.mp htxn' with hold | hlast
    · exact h.new txn' hold
    · obtain rfl := List.mem_singleton.mp hlast
      by_cases hid : txn'.id c ∈ added.map (V2Transaction.id c)
      · obtain ⟨txn,htxn,hsame⟩ := List.mem_map.mp hid
        rw [← hsame]
        exact h.new txn htxn
      · rw [← h.indices _ hid,hnew]
  indices := by
    intro id hid
    simp only [List.map_append,List.map_cons,List.map_nil,List.mem_append,List.mem_singleton,not_or] at hid
    rw [TxPool.push,AList.lookup_insert_ne hid.2,h.indices id hid.1]
  weight := by
    rw [TxPool.push,h.weight,List.map_append,List.sum_append,List.map_singleton,List.sum_singleton,UInt64.add_assoc]
  light := by
    intro txn' htxn'
    rcases List.mem_append.mp htxn' with hold | hlast
    · exact h.light txn' hold
    · obtain rfl := List.mem_singleton.mp hlast
      exact hlight

theorem lookup_foldl_erase (added : List V2Transaction) (indices : AList fun _ : TransactionID => ℕ) (id : TransactionID) :
    (added.foldl (fun indices txn => indices.erase (V2Transaction.id c txn)) indices).lookup id =
      if id ∈ added.map (V2Transaction.id c) then none else indices.lookup id := by
  induction added generalizing indices with
  | nil => simp
  | cons txn added ih =>
    rw [List.foldl_cons,ih]
    simp only [List.map_cons,List.mem_cons]
    by_cases hid : id = txn.id c
    · subst hid
      simp [AList.lookup_erase]
    · rw [AList.lookup_erase_ne hid]
      simp [hid]

theorem TxPool.Adding.takeBack (h : start.Adding c added pool) : start.Same (start.takeBack c pool) where
  v2txns := by
    rw [TxPool.takeBack,h.v2txns,List.take_left']
    rfl
  indices := by
    intro id
    rw [TxPool.takeBack]
    dsimp only
    rw [lookup_foldl_erase,h.v2txns,List.drop_left' rfl]
    split_ifs with hid
    · obtain ⟨txn,htxn,rfl⟩ := List.mem_map.mp hid
      exact (h.new txn htxn).symm
    · exact h.indices id hid
  weight := rfl

theorem toNat_sum_weights (added : List V2Transaction) (hsmall : totalWeight added < 2^64) :
    (added.map v2TransactionWeight).sum.toNat = totalWeight added := by
  induction added with
  | nil => rfl
  | cons txn added ih =>
    rw [totalWeight_cons] at hsmall
    rw [List.map_cons,List.sum_cons,UInt64.toNat_add,ih (by omega),totalWeight_cons]
    exact Nat.mod_eq_of_lt hsmall

theorem TxPool.Adding.weighed (h : start.Adding c added pool) (hstart : start.Weighed) (hroom : start.weight < txpoolMaxWeight)
    (hsmall : added.length ≤ 2^43) : pool.Weighed := by
  have hlight : totalWeight added ≤ added.length * 2000000 := by
    have hle := List.sum_le_card_nsmul (added.map fun txn => (v2TransactionWeight txn).toNat) 2000000 ?_
    · simpa [totalWeight] using hle
    · intro w hw
      obtain ⟨txn,htxn,rfl⟩ := List.mem_map.mp hw
      exact UInt64.le_iff_toNat_le.mp (h.light txn htxn)
  have hmax : txpoolMaxWeight.toNat = 20000000 := by decide
  rw [UInt64.lt_iff_toNat_lt] at hroom
  have hbound : start.weight.toNat + totalWeight added < 2^64 := by
    have : added.length * 2000000 ≤ 2^43 * 2000000 := Nat.mul_le_mul_right _ hsmall
    omega
  rw [TxPool.Weighed,h.v2txns,h.weight,totalWeight_append,UInt64.toNat_add,toNat_sum_weights added (by omega),
    Nat.mod_eq_of_lt hbound]
  exact Nat.add_le_add_right hstart _

end Adding

section Runs

variable {cfg : Config} {m : QdayManifest} {M M' : Manager} {start : TxPool}

theorem addTxns_adding (start : TxPool) (txns : List V2Transaction) :
    Triple (fun N => N.pool = start) (txns.foldlM (fun _ txn => Manager.addTxn cfg start txn) ())
      (fun _ N => ∃ added, added.length ≤ txns.length ∧ start.Adding cfg.crypto added N.pool)
      (fun N => start.Same N.pool ∧ N.pool.ms = none) := by
  refine (Triple.foldlM (I := fun done _ (N : Manager) => ∃ added, added.length ≤ done.length ∧ start.Adding cfg.crypto added N.pool)
    (fun done txn rest _ _ => ?_) ()).pre ?_
  · rintro N r N' ⟨added,hlen,hadding⟩ hrun
    rcases Manager.addTxn_inv hrun with ⟨rfl,rfl⟩ | ⟨⟨msg,rfl⟩,rfl⟩ | ⟨ms,ms',-,hnew,hvalid,-,rfl,rfl⟩
    · exact ⟨added,by rw [List.length_append]; omega,hadding⟩
    · exact ⟨hadding.takeBack,rfl⟩
    · exact ⟨added ++ [txn],by simpa using hlen,hadding.push hnew (transfer_accepted hvalid).2.weight_le ms'⟩
  · rintro N rfl
    exact ⟨[],le_rfl,TxPool.Adding.refl _ _⟩

theorem updateSetProofs_length {updateElementProof : StateElement → Outcome StateElement} {numLeaves : UInt64}
    (h : Manager.updateSetProofs cfg updateElementProof numLeaves txns = .ok txns') :
    txns'.length = txns.length :=
  (mapM_eq_ok.mp h).length_eq.symm

theorem updateV2TransactionProofs_length {st : Store} {updated : List V2Transaction} {source target : ChainIndex}
    (h : Manager.updateV2TransactionProofs cfg st txns source target = .ok updated) : updated.length ≤ txns.length := by
  rw [Manager.updateV2TransactionProofs] at h
  cases hbasis : st.state source.id with
  | none => rw [hbasis] at h; cases h
  | some basisState =>
    rw [hbasis] at h
    simp only [bind_eq_ok,pure_eq_ok,Prod.exists] at h
    obtain ⟨-,-,revert,apply,-,txns₁,hrevert,txns₂,happly,rfl⟩ := h
    have h₁ : txns₁.length ≤ txns.length := by
      refine foldlM_keeps (P := fun _ (set : List V2Transaction) => set.length ≤ txns.length) ?_ hrevert le_rfl
      intro _ index _ set set' _ hle hstep
      simp only [Manager.revertSet,bind_eq_ok,Prod.exists] at hstep
      obtain ⟨b,bs,cs,-,cru,-,hupdate⟩ := hstep
      rwa [updateSetProofs_length hupdate]
    have h₂ : txns₂.length ≤ txns₁.length := by
      refine foldlM_keeps (P := fun _ (set : List V2Transaction) => set.length ≤ txns₁.length) ?_ happly le_rfl
      intro _ index _ set set' _ hle hstep
      simp only [Manager.applySet,bind_eq_ok,Prod.exists] at hstep
      obtain ⟨b,bs,cs,-,cs',cau,-,hupdate⟩ := hstep
      rw [updateSetProofs_length hupdate,List.length_map]
      exact (List.length_filter_le _ _).trans hle
    split_ifs
    · rw [updateQdayEphemeralHeights,List.length_map]
      exact h₂.trans h₁
    · exact h₂.trans h₁

/-- The sets that a machine can hold. -/
def Event.Sized : Event → Prop
  | .addV2PoolTransactions _ txns => txns.length ≤ 2^43
  | _ => True

theorem blockStable_weighed : BlockStable cfg fun M => M.pool.Weighed where
  unset _ h := h
  reverted _ _ _ _ _ := restoreQdayPool_weighed _ _
  advanced _ _ _ _ hadvance h := by
    obtain ⟨cau,hpool⟩ := hadvance.pool
    exact applyPoolUpdate_weighed hpool h
  validated _ _ _ _ _ hadvance h := by
    obtain ⟨cau,hpool⟩ := hadvance.pool
    exact applyPoolUpdate_weighed hpool h
  ingestedOn _ _ _ _ _ _ h := h
  stored _ _ _ _ h := h

theorem Event.weighed {e : Event} {r : Except String Unit} (hsized : e.Sized) (h : M.pool.Weighed)
    (hrun : exec (e.run cfg) M = .ok (r, M')) : M'.pool.Weighed := by
  cases e with
  | addBlocks blocks => exact Triple.keeps (I := fun N => N.pool.Weighed) (blockStable_weighed.addBlocks blocks) h hrun
  | addValidatedV2Blocks now blocks states =>
    exact Triple.keeps (I := fun N => N.pool.Weighed) (blockStable_weighed.addValidatedV2Blocks now blocks states) h hrun
  | pruneBlocks height =>
    obtain ⟨-,rfl⟩ := ok_pair hrun
    exact h
  | addV2PoolTransactions basis txns =>
    obtain ⟨r',hp⟩ := exec_discard hrun
    obtain ⟨pool,hpool,hend⟩ := Manager.addV2PoolTransactions_inv hp
    obtain ⟨hweighed,hroom⟩ := revalidatePool_weighed hpool h
    rcases hend with rfl | ⟨updated,r₁,hupdate,hloop,-⟩
    · exact hweighed
    · have hadded := addTxns_adding pool updated _ _ _ rfl hloop
      cases r₁ with
      | ok u =>
        obtain ⟨added,hlen,hadding⟩ := hadded
        exact hadding.weighed hweighed hroom (hlen.trans ((updateV2TransactionProofs_length hupdate).trans hsized))
      | error msg =>
        obtain ⟨hsame,-⟩ := hadded
        rw [TxPool.Weighed,hsame.v2txns,hsame.weight]
        exact hweighed
  | v2PoolTransactions =>
    obtain ⟨r',hp⟩ := exec_discard hrun
    obtain ⟨pool,hpool,-,rfl⟩ := Manager.v2PoolTransactions_inv hp
    exact (revalidatePool_weighed hpool h).1

theorem Reachable.weighed {permitted : Manager → Event → Prop} (hsized : ∀ M e, permitted M e → e.Sized)
    (h : Reachable cfg m permitted M) : M.pool.Weighed := by
  induction h with
  | start hnew =>
    simp only [newManager,bind_eq_ok,Prod.exists,pure_eq_ok] at hnew
    obtain ⟨st,tip,-,rfl⟩ := hnew
    exact le_rfl
  | step _ he hrun ih => exact Event.weighed (hsized _ _ he) ih hrun

end Runs

end QdayNode
