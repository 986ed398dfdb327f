import QdayNode.Consensus.BlockProofs
import QdayNode.Manager.BestChain

/-!
# Proofs along a path

`updateV2TransactionProofs` takes a set of transactions over the blocks of a reorg path,
one by one.  What it does to an input does not depend on the birth height that an
unconfirmed input carries on the way, and that height is set anew at the end; so a path
may be cut in pieces, as long as the pieces make up the path.
-/
namespace QdayNode
open Ancestry ByteString Procedure Outcome

variable {c : Crypto} {txn txn' : V2Transaction} {update : StateElement → Outcome StateElement} {cfg : Config}
  {txns txns' out : List V2Transaction} {au : ApplyUpdate} {st : Store} {a b x z i : ChainIndex}
  {l l' : List ChainIndex} {maxLen : ℕ} {m : QdayManifest} {S : Set Bytes} {log : List Ingestion} {bl : List Block}
  {ch ch' : Chain} {M : Manager}

section Heights

/-- What `updateQdayEphemeralHeights` does to one input. -/
def V2SiacoinInput.bornAt (height : UInt64) (sci : V2SiacoinInput) : V2SiacoinInput :=
  if sci.parent.stateElement.leafIndex = unassignedLeafIndex then { sci with parent.maturityHeight := height } else sci

def V2Transaction.bornAt (height : UInt64) (txn : V2Transaction) : V2Transaction :=
  { txn with siacoinInputs := txn.siacoinInputs.map (V2SiacoinInput.bornAt height) }

theorem updateQdayEphemeralHeights_eq (txns : List V2Transaction) (height : UInt64) :
    updateQdayEphemeralHeights txns height = txns.map (V2Transaction.bornAt height) := rfl

@[simp] theorem V2SiacoinInput.bornAt_stateElement (height : UInt64) (sci : V2SiacoinInput) :
    (sci.bornAt height).parent.stateElement = sci.parent.stateElement := by
  unfold bornAt
  split_ifs
  · rfl
  · rfl

@[simp] theorem V2SiacoinInput.bornAt_id (height : UInt64) (sci : V2SiacoinInput) :
    (sci.bornAt height).parent.id = sci.parent.id := by
  unfold bornAt
  split_ifs
  · rfl
  · rfl

@[simp] theorem V2SiacoinInput.bornAt_bornAt (height height' : UInt64) (sci : V2SiacoinInput) :
    (sci.bornAt height).bornAt height' = sci.bornAt height' := by
  unfold bornAt
  by_cases h : sci.parent.stateElement.leafIndex = unassignedLeafIndex
  · simp [h]
  · simp [h]

@[simp] theorem V2Transaction.bornAt_bornAt (height height' : UInt64) (txn : V2Transaction) :
    (txn.bornAt height).bornAt height' = txn.bornAt height' := by
  simp [V2Transaction.bornAt,Function.comp_def]

@[simp] theorem V2Transaction.id_bornAt (height : UInt64) (txn : V2Transaction) : (txn.bornAt height).id c = txn.id c := by
  have hinputs : encodeList (fun sci : V2SiacoinInput => sci.parent.id.val) (txn.siacoinInputs.map (V2SiacoinInput.bornAt height)) =
      encodeList (fun sci : V2SiacoinInput => sci.parent.id.val) txn.siacoinInputs := by
    simp [encodeList,List.flatMap_map]
  rw [V2Transaction.id,V2Transaction.id,V2Transaction.idPreimage,V2Transaction.idPreimage,V2Transaction.encodeSemantics,
    V2Transaction.encodeSemantics,V2Transaction.bornAt]
  dsimp only
  rw [hinputs]

def V2Transaction.elements (c : Crypto) (txn : V2Transaction) : List StateElement :=
  ((transactionPlaces c).get txn).map Prod.snd

variable {f : ℕ → StateElement → StateElement}

@[simp] theorem V2Transaction.elements_bornAt (height : UInt64) (txn : V2Transaction) :
    (txn.bornAt height).elements c = txn.elements c := by
  have hinputs : ((txn.siacoinInputs.map (V2SiacoinInput.bornAt height)).flatMap (siacoinInputPlaces c).get).map Prod.snd =
      (txn.siacoinInputs.flatMap (siacoinInputPlaces c).get).map Prod.snd := by
    rw [List.flatMap_map,List.map_flatMap,List.map_flatMap]
    refine List.flatMap_congr fun sci _ => ?_
    simp [siacoinInputPlaces,Places.field]
  simp only [V2Transaction.elements,transactionPlaces,Places.within,Places.prod,Places.list,V2Transaction.bornAt,List.map_append,
    hinputs]

theorem siacoinInputs_update_bornAt {height : UInt64} {inputs : List V2SiacoinInput} {s : ℕ}
    (hf : ∀ j sci, inputs[j]? = some sci → ((f (s + j) sci.parent.stateElement).leafIndex = unassignedLeafIndex ↔
      sci.parent.stateElement.leafIndex = unassignedLeafIndex)) :
    (siacoinInputPlaces c).updateList f s (inputs.map (V2SiacoinInput.bornAt height)) =
      ((siacoinInputPlaces c).updateList f s inputs).map (V2SiacoinInput.bornAt height) := by
  induction inputs generalizing s with
  | nil => rfl
  | cons sci inputs ih =>
    rw [List.map_cons,Places.updateList,Places.updateList,List.map_cons]
    congr 1
    · have hsame := hf 0 sci rfl
      rw [Nat.add_zero] at hsame
      simp only [siacoinInputPlaces,Places.field,V2SiacoinInput.bornAt,hsame]
      split_ifs
      · rfl
      · rfl
    · refine ih fun j sci' hj => ?_
      have hnext := hf (j + 1) sci' (by rwa [List.getElem?_cons_succ])
      rwa [← Nat.add_assoc,Nat.add_right_comm] at hnext

theorem V2Transaction.elements_input {j : ℕ} {sci : V2SiacoinInput} (h : txn.siacoinInputs[j]? = some sci) :
    (txn.elements c)[j]? = some sci.parent.stateElement := by
  have hget : (txn.siacoinInputs.flatMap (siacoinInputPlaces c).get).map Prod.snd =
      txn.siacoinInputs.map fun sci => sci.parent.stateElement := by
    rw [List.map_flatMap]
    exact List.flatMap_pure_eq_map _ _
  have hlt := (List.getElem?_eq_some_iff.mp h).1
  simp only [V2Transaction.elements,transactionPlaces,Places.within,Places.prod,Places.list,List.map_append,hget]
  rw [List.getElem?_append_left (by rwa [List.length_map]),List.getElem?_map,h]
  rfl

theorem V2Transaction.update_bornAt {height : UInt64}
    (hf : ∀ j e, (txn.elements c)[j]? = some e → ((f j e).leafIndex = unassignedLeafIndex ↔ e.leafIndex = unassignedLeafIndex)) :
    (transactionPlaces c).update f 0 (txn.bornAt height) = ((transactionPlaces c).update f 0 txn).bornAt height := by
  have hinputs : (siacoinInputPlaces c).updateList f 0 (txn.siacoinInputs.map (V2SiacoinInput.bornAt height)) =
      ((siacoinInputPlaces c).updateList f 0 txn.siacoinInputs).map (V2SiacoinInput.bornAt height) := by
    refine siacoinInputs_update_bornAt fun j sci hj => ?_
    rw [Nat.zero_add]
    exact hf j _ (V2Transaction.elements_input hj)
  have hlength : ((txn.siacoinInputs.map (V2SiacoinInput.bornAt height)).flatMap (siacoinInputPlaces c).get).length =
      (txn.siacoinInputs.flatMap (siacoinInputPlaces c).get).length := by
    simp [siacoinInputPlaces,Places.field,Function.comp_def]
  simp only [transactionPlaces,Places.within,Places.prod,Places.list,V2Transaction.bornAt,hinputs,hlength]

end Heights

section Updates

variable {numLeaves : UInt64}

/-- What `updateTxnProofs` makes of one element. -/
def Updated (update : StateElement → Outcome StateElement) (numLeaves : UInt64) (e e' : StateElement) : Prop :=
  if e.leafIndex = unassignedLeafIndex then e' = e else e.leafIndex < numLeaves ∧ update e = .ok e'

theorem updateElements_eq_some {es es' : List StateElement} :
    updateElements update numLeaves es = .ok (some es') ↔ List.Forall₂ (Updated update numLeaves) es es' := by
  induction es generalizing es' with
  | nil =>
    rw [updateElements,List.forall₂_nil_left_iff,Except.ok.injEq,Option.some.injEq]
    exact eq_comm
  | cons e es ih =>
    rw [updateElements,List.forall₂_cons_left_iff]
    split_ifs with hunassigned hlt
    · simp only [bind_eq_ok,pure_eq_ok,Option.map_eq_some_iff]
      constructor
      · rintro ⟨_,hrest,rest,rfl,rfl⟩
        exact ⟨e,rest,by rw [Updated,if_pos hunassigned],ih.mp hrest,rfl⟩
      · rintro ⟨e',rest,he,hrest,rfl⟩
        rw [Updated,if_pos hunassigned] at he
        subst he
        exact ⟨some rest,ih.mpr hrest,rest,rfl,rfl⟩
    · simp only [bind_eq_ok,pure_eq_ok,Option.map_eq_some_iff]
      constructor
      · rintro ⟨e',he,_,hrest,rest,rfl,rfl⟩
        exact ⟨e',rest,by rw [Updated,if_neg hunassigned]; exact ⟨hlt,he⟩,ih.mp hrest,rfl⟩
      · rintro ⟨e',rest,he,hrest,rfl⟩
        rw [Updated,if_neg hunassigned] at he
        exact ⟨e',he.2,some rest,ih.mpr hrest,rest,rfl,rfl⟩
    · constructor
      · intro h
        cases h
      · rintro ⟨e',rest,he,-⟩
        rw [Updated,if_neg hunassigned] at he
        exact absurd he.1 hlt

theorem updateTxnProofs_eq_some :
    updateTxnProofs c txn update numLeaves = .ok (some txn') ↔ ∃ es, List.Forall₂ (Updated update numLeaves) (txn.elements c) es ∧
      txn' = (transactionPlaces c).update (fun i e => es.getD i e) 0 txn := by
  simp only [updateTxnProofs,bind_eq_ok,pure_eq_ok,Option.map_eq_some_iff]
  constructor
  · rintro ⟨_,hes,es,rfl,rfl⟩
    exact ⟨es,updateElements_eq_some.mp hes,rfl⟩
  · rintro ⟨es,hes,rfl⟩
    exact ⟨some es,updateElements_eq_some.mpr hes,es,rfl,rfl⟩

theorem updateSetProofs_eq_ok :
    Manager.updateSetProofs cfg update numLeaves txns = .ok txns' ↔
      List.Forall₂ (fun txn txn' => updateTxnProofs cfg.crypto txn update numLeaves = .ok (some txn')) txns txns' := by
  rw [Manager.updateSetProofs,mapM_eq_ok]
  refine iff_of_eq (congrArg (fun R => List.Forall₂ R txns txns') ?_)
  funext txn txn'
  rw [bind_eq_ok]
  refine propext ⟨?_,fun h => ⟨some txn',h,rfl⟩⟩
  rintro ⟨_ | txn₁,hupdate,h⟩
  · cases h
  · obtain rfl := Except.ok.inj h
    exact hupdate

variable {e e' : StateElement}

theorem updateProof_leafIndex {groups : List (List ElementLeaf)} (h : updateProof c e groups = .ok e') :
    e'.leafIndex = e.leafIndex := by
  rw [updateProof,bind_unit_eq_ok] at h
  obtain ⟨-,h⟩ := h
  split at h
  · rw [pure_eq_ok] at h
    rw [h]
  · dsimp only at h
    split_ifs at h
    · rw [pure_eq_ok] at h
      rw [← h]
    · rw [bind_unit_eq_ok,pure_eq_ok] at h
      rw [← h.2]

theorem ApplyUpdate.updateElementProof_leafIndex (h : au.updateElementProof c e = .ok e') :
    e'.leafIndex = e.leafIndex := by
  rw [ApplyUpdate.updateElementProof,ElementApplyUpdate.updateElementProof,bind_unit_eq_ok] at h
  obtain ⟨-,h⟩ := h
  split_ifs at h
  · rw [pure_eq_ok] at h
    rw [h]
  · rw [bind_eq_ok] at h
    obtain ⟨e₁,he₁,h⟩ := h
    rw [← updateProof_leafIndex he₁]
    split_ifs at h
    · rw [bind_unit_eq_ok,pure_eq_ok] at h
      rw [← h.2]
    · rw [pure_eq_ok] at h
      rw [h]

theorem RevertUpdate.updateElementProof_leafIndex {ru : RevertUpdate} (h : ru.updateElementProof c e = .ok e') :
    e'.leafIndex = e.leafIndex := by
  rw [RevertUpdate.updateElementProof,ElementRevertUpdate.updateElementProof,bind_unit_eq_ok,bind_unit_eq_ok] at h
  obtain ⟨-,-,h⟩ := h
  dsimp only at h
  split_ifs at h
  · rw [updateProof_leafIndex h]
  · rw [updateProof_leafIndex h]

end Updates

section Twins

variable {numLeaves : UInt64}

/-- Transactions that differ in the birth heights of unconfirmed inputs at most. -/
def Twins (txns txns' : List V2Transaction) : Prop :=
  List.Forall₂ (fun txn txn' => V2Transaction.bornAt 0 txn = V2Transaction.bornAt 0 txn') txns txns'

theorem twins_heights (txns : List V2Transaction) (height : UInt64) : Twins (updateQdayEphemeralHeights txns height) txns := by
  rw [updateQdayEphemeralHeights_eq,Twins,List.forall₂_map_left_iff,List.forall₂_same]
  intro txn _
  exact V2Transaction.bornAt_bornAt _ _ _

theorem Twins.symm (h : Twins txns txns') : Twins txns' txns :=
  List.Forall₂.flip (h.imp fun _ _ => Eq.symm)

theorem Twins.trans {txns'' : List V2Transaction} (h : Twins txns txns') (h' : Twins txns' txns'') : Twins txns txns'' := by
  induction h generalizing txns'' with
  | nil => exact h'
  | cons htwin _ ih =>
    cases h' with
    | cons htwin' hrest => exact .cons (htwin.trans htwin') (ih hrest)

theorem Twins.heights (h : Twins txns txns') (height : UInt64) :
    updateQdayEphemeralHeights txns height = updateQdayEphemeralHeights txns' height := by
  induction h with
  | nil => rfl
  | @cons txn txn' txns txns' hhead _ ih =>
    rw [updateQdayEphemeralHeights_eq,updateQdayEphemeralHeights_eq] at *
    rw [List.map_cons,List.map_cons,ih,← V2Transaction.bornAt_bornAt 0 height txn,hhead,V2Transaction.bornAt_bornAt]

theorem id_of_twin (h : txn.bornAt 0 = txn'.bornAt 0) : txn.id c = txn'.id c := by
  rw [← V2Transaction.id_bornAt 0 txn,h,V2Transaction.id_bornAt]

theorem updateTxnProofs_twin (hupdate : ∀ e e', update e = .ok e' → e'.leafIndex = e.leafIndex) {txn₁ : V2Transaction}
    (htwin : txn.bornAt 0 = txn'.bornAt 0) (h : updateTxnProofs c txn update numLeaves = .ok (some txn₁)) :
    ∃ txn₁', updateTxnProofs c txn' update numLeaves = .ok (some txn₁') ∧ txn₁.bornAt 0 = txn₁'.bornAt 0 := by
  obtain ⟨es,hes,rfl⟩ := updateTxnProofs_eq_some.mp h
  have hsame : txn.elements c = txn'.elements c := by
    rw [← V2Transaction.elements_bornAt 0 txn,htwin,V2Transaction.elements_bornAt]
  refine ⟨_,updateTxnProofs_eq_some.mpr ⟨es,hsame ▸ hes,rfl⟩,?_⟩
  have hunassigned : ∀ j e, (txn.elements c)[j]? = some e →
      ((es.getD j e).leafIndex = unassignedLeafIndex ↔ e.leafIndex = unassignedLeafIndex) := by
    intro j e hj
    obtain ⟨hlt,rfl⟩ := List.getElem?_eq_some_iff.mp hj
    have hlt' : j < es.length := hes.length_eq ▸ hlt
    have hat := hes.get hlt hlt'
    rw [List.getD_eq_getElem?_getD,List.getElem?_eq_getElem hlt',Option.getD_some]
    simp only [List.get_eq_getElem,Updated] at hat
    split_ifs at hat with hnone
    · rw [hat]
    · rw [hupdate _ _ hat.2]
  rw [← V2Transaction.update_bornAt hunassigned,← V2Transaction.update_bornAt (hsame ▸ hunassigned),htwin]

theorem updateSetProofs_twins (hupdate : ∀ e e', update e = .ok e' → e'.leafIndex = e.leafIndex) (htwins : Twins txns txns')
    (h : Manager.updateSetProofs cfg update numLeaves txns = .ok out) :
    ∃ out', Manager.updateSetProofs cfg update numLeaves txns' = .ok out' ∧ Twins out out' := by
  rw [updateSetProofs_eq_ok] at h
  simp only [updateSetProofs_eq_ok]
  induction htwins generalizing out with
  | nil =>
    cases h
    exact ⟨[],.nil,.nil⟩
  | cons htwin _ ih =>
    cases h with
    | cons hone hrest =>
      obtain ⟨txn₁',hone',htwin'⟩ := updateTxnProofs_twin hupdate htwin hone
      obtain ⟨rest',hrest',htwins'⟩ := ih hrest
      exact ⟨txn₁' :: rest',.cons hone' hrest',.cons htwin' htwins'⟩

theorem revertSet_twins (index : ChainIndex) (htwins : Twins txns txns')
    (h : Manager.revertSet cfg st txns index = .ok out) :
    ∃ out', Manager.revertSet cfg st txns' index = .ok out' ∧ Twins out out' := by
  simp only [Manager.revertSet,bind_eq_ok,Prod.exists] at h ⊢
  obtain ⟨b,bs,cs,hblock,cru,hcru,hupdate⟩ := h
  obtain ⟨out',hupdate',htwins'⟩ := updateSetProofs_twins (fun _ _ => RevertUpdate.updateElementProof_leafIndex) htwins hupdate
  exact ⟨out',⟨b,bs,cs,hblock,cru,hcru,hupdate'⟩,htwins'⟩

/-- What an applied block does to a transaction that it does not confirm, before the proofs are updated. -/
def V2Transaction.confirmInputs (created : List (Hash256 × StateElement)) (height : UInt64) (txn : V2Transaction) : V2Transaction :=
  { txn with
    siacoinInputs := txn.siacoinInputs.map (V2SiacoinInput.confirmAt created height)
    siafundInputs := txn.siafundInputs.map fun si =>
      { si with parent.stateElement := confirm created si.parent.id si.parent.stateElement } }

/-- The elements that count as created by a block when a set is updated. -/
def ApplyUpdate.createdCoins (cau : ApplyUpdate) : List (Hash256 × StateElement) := { cau.diffs with fces := [], v2fces := [] }.created

theorem applySet_eq_ok {index : ChainIndex} :
    Manager.applySet cfg st txns index = .ok out ↔ ∃ b bs cs cs' cau, Manager.pathBlock cfg st index = .ok (b, bs, cs) ∧
      applyBlock cfg.crypto cs b bs ((st.ancestorTimestamp b.parentID).getD default) = .ok (cs', cau) ∧
      Manager.updateSetProofs cfg (cau.updateElementProof cfg.crypto) cs'.elements.numLeaves
        ((txns.filter fun txn => txn.id cfg.crypto ∉ b.v2Transactions.map (V2Transaction.id cfg.crypto)).map
          (V2Transaction.confirmInputs cau.createdCoins cs'.index.height)) = .ok out := by
  simp only [Manager.applySet,bind_eq_ok,Prod.exists]
  constructor
  · rintro ⟨b,bs,cs,hblock,cs',cau,happly,hupdate⟩
    exact ⟨b,bs,cs,cs',cau,hblock,happly,hupdate⟩
  · rintro ⟨b,bs,cs,cs',cau,hblock,happly,hupdate⟩
    exact ⟨b,bs,cs,hblock,cs',cau,happly,hupdate⟩

theorem V2SiacoinInput.confirmAt_bornAt (created : List (Hash256 × StateElement)) (height k k' : UInt64) (sci : V2SiacoinInput) :
    ((sci.bornAt k).confirmAt created height).bornAt k' = (sci.confirmAt created height).bornAt k' := by
  by_cases hunassigned : sci.parent.stateElement.leafIndex = unassignedLeafIndex
  · by_cases hnew : (confirm created sci.parent.id sci.parent.stateElement).leafIndex = unassignedLeafIndex
    · simp [bornAt,confirmAt,replaceElement,hunassigned,hnew]
    · simp [bornAt,confirmAt,replaceElement,hunassigned,hnew]
  · have hsame : sci.bornAt k = sci := if_neg hunassigned
    rw [hsame]

theorem V2Transaction.confirmInputs_bornAt (created : List (Hash256 × StateElement)) (height k k' : UInt64) (txn : V2Transaction) :
    ((txn.bornAt k).confirmInputs created height).bornAt k' = (txn.confirmInputs created height).bornAt k' := by
  simp only [V2Transaction.bornAt,V2Transaction.confirmInputs,List.map_map,Function.comp_def,V2SiacoinInput.confirmAt_bornAt]

theorem Twins.confirm (h : Twins txns txns') (p : TransactionID → Bool)
    (created : List (Hash256 × StateElement)) (height : UInt64) :
    Twins ((txns.filter fun txn => p (txn.id c)).map (V2Transaction.confirmInputs created height))
      ((txns'.filter fun txn => p (txn.id c)).map (V2Transaction.confirmInputs created height)) := by
  induction h with
  | nil => exact .nil
  | @cons txn txn' _ _ htwin _ ih =>
    rw [List.filter_cons,List.filter_cons,id_of_twin htwin]
    split_ifs
    · refine .cons ?_ ih
      rw [← V2Transaction.confirmInputs_bornAt created height 0 0 txn,htwin,V2Transaction.confirmInputs_bornAt]
    · exact ih

theorem applySet_twins (index : ChainIndex) (htwins : Twins txns txns')
    (h : Manager.applySet cfg st txns index = .ok out) :
    ∃ out', Manager.applySet cfg st txns' index = .ok out' ∧ Twins out out' := by
  obtain ⟨b,bs,cs,cs',cau,hblock,happly,hupdate⟩ := applySet_eq_ok.mp h
  obtain ⟨out',hupdate',htwins'⟩ := updateSetProofs_twins (fun _ _ => ApplyUpdate.updateElementProof_leafIndex)
    (htwins.confirm (fun id => id ∉ b.v2Transactions.map (V2Transaction.id cfg.crypto)) cau.createdCoins cs'.index.height) hupdate
  exact ⟨out',applySet_eq_ok.mpr ⟨b,bs,cs,cs',cau,hblock,happly,hupdate'⟩,htwins'⟩

end Twins

section Paths

variable {genesis : BlockID} {y : ChainIndex} {k k' : List ChainIndex}

theorem Meets.unique (h : st.HeaderTree genesis) (ha : st.Member genesis a) (hb : st.Member genesis b)
    (hm : Meets st genesis a b l l' z) (hm' : Meets st genesis a b k k' y) : l = k ∧ l' = k' := by
  obtain ⟨n,hn⟩ := hm.lowest y k k' hm'.member hm'.left hm'.right
  obtain ⟨n',hn'⟩ := hm'.lowest z l l' hm.member hm.left hm.right
  have hz := h.length_eq hm.member hm'.member hn
  have hy := h.length_eq hm'.member hm.member hn'
  have hl := h.length_eq ha hm.member hm.left
  have hk := h.length_eq ha hm'.member hm'.left
  have hl' := h.length_eq hb hm.member hm.right
  have hk' := h.length_eq hb hm'.member hm'.right
  exact ⟨(hm.left.unique hm'.left (by omega)).1,(hm.right.unique hm'.right (by omega)).1⟩

theorem reorgPath_of_meets (h : st.HeaderTree genesis) (ha : st.Member genesis a) (hb : st.Member genesis b)
    (hm : Meets st genesis a b l l' z) (hfits : l.length + l'.length ≤ maxLen) :
    Manager.reorgPath st a b maxLen = .ok (l, l'.reverse) := by
  obtain ⟨revert,apply,z',hm',hrun⟩ := reorgPath_members h ha hb
  obtain ⟨rfl,rfl⟩ := hm.unique h ha hb hm'
  exact hrun maxLen hfits

theorem meets_down (hz : st.Member genesis z) (hdown : Down st.parentIndex a l z) : Meets st genesis a z l [] z :=
  ⟨hdown,Down.refl z,hz,fun _ _ m' _ _ hm' => ⟨m',hm'⟩⟩

theorem meets_up (hz : st.Member genesis z) (hdown : Down st.parentIndex a l z) : Meets st genesis z a [] l z :=
  ⟨Down.refl z,hdown,hz,fun _ m _ _ hm _ => ⟨m,hm⟩⟩

theorem Meets.down (hm : Meets st genesis x b k k' z) (hdown : Down st.parentIndex a l x)
    (hapart : ∀ y ∈ l, ∀ m', ¬ Down st.parentIndex b m' y) : Meets st genesis a b (l ++ k) k' z := by
  refine ⟨hdown.append hm.left,hm.right,hm.member,fun y m m' hy hm₁ hm₂ => ?_⟩
  rcases Nat.lt_or_ge m.length l.length with hlt | hle
  · -- the common ancestor would lie on the way down
    obtain ⟨rest,rfl,hrest⟩ := hm₁.compare hdown hlt.le
    cases hrest with
    | refl => simp at hlt
    | step => exact absurd hm₂ (hapart y (by simp) m')
  · obtain ⟨rest,rfl,hrest⟩ := hdown.compare hm₁ hle
    exact hm.lowest y rest m' hy hrest hm₂

end Paths

section Blocks

variable {rest : List Block}
  {b : Block}

theorem Branch.of_down (hset : Setting c m S log) (htree : st.HeaderTree (m.genesis.id c)) (hch : Branch c m log bl ch)
    (hheld : st.Held c m bl) (hdown : Down st.parentIndex ch.state.index l i) (hi : st.Member (m.genesis.id c) i) :
    ∃ pre post ch₀, bl = pre ++ post ∧ post.length = l.length ∧ Branch c m log pre ch₀ ∧ ch₀.state.index = i := by
  have hlen := htree.length_eq (hch.member hset hheld) hi hdown
  have hheight := hch.height hset
  have hsplit := hch
  rw [← List.take_append_drop i.height.toNat bl] at hsplit hheld
  obtain ⟨ch₀,hch₀⟩ := hsplit.split
  obtain ⟨l',hl',hlen'⟩ := hch₀.down hset hsplit hheld
  rw [List.length_drop] at hlen'
  obtain ⟨-,rfl⟩ := hdown.unique hl' (by omega)
  exact ⟨_,_,ch₀,(List.take_append_drop _ bl).symm,by rw [List.length_drop]; omega,hch₀,rfl⟩

theorem Branch.blockStep (hset : Setting c m S log) (hch : Branch c m log bl ch) (hch' : Branch c m log (bl ++ [b]) ch')
    (hext : ch.extend c noTimestamp b = .ok ch') {t : Time} {s : State}
    (happly : applyBlock c ch.state b {} t = .ok (s, au)) :
    s = ch'.state ∧ ∃ ms out, BlockStep c m S bl ch b ch' au ms out :=
  (hch.valid hset).blockStep hset.ideal hext (hset.messages _ _ hch') happly

/-- A block on a path that can be reverted and applied: the last one of a branch of the store. -/
structure PathBlock (cfg : Config) (m : QdayManifest) (log : List Ingestion) (st : Store) (bl : List Block) (ch : Chain) (b : Block)
    (ch' : Chain) (i : ChainIndex) : Prop where
  before : Branch cfg.crypto m log bl ch
  after : Branch cfg.crypto m log (bl ++ [b]) ch'
  extend : ch.extend cfg.crypto noTimestamp b = .ok ch'
  index : ch'.state.index = i
  found : Manager.pathBlock cfg st i = .ok (b, {}, ch.state)

theorem Branch.pathBlock (hset : Setting cfg.crypto m S log) (hch' : Branch cfg.crypto m log (bl ++ [b]) ch')
    (hheld : st.Held cfg.crypto m (bl ++ [b])) (hbody : ¬ st.Pruned ch'.state.index.id) (hordered : Ordered cfg b) :
    ∃ ch, PathBlock cfg m log st bl ch b ch' ch'.state.index := by
  obtain ⟨ch,hch,-,hext⟩ := hch'.snoc_inv
  refine ⟨ch,hch,hch',hext,rfl,?_⟩
  have hstate := (hheld.of_prefix (List.prefix_append bl [b])).tip hch.run
  have hparent := (block_accepted (Chain.extend_inv hext).1).parentID
  obtain ⟨sb,hsb,-,hnone | ⟨hsome,hsupplement⟩⟩ := (hheld.tip hch'.run).block
  · exact absurd ⟨sb,hsb,hnone⟩ hbody
  · have hblock : st.block ch'.state.index.id = some (b, some {}) := by
      rw [Store.block,hsb,Option.bind_some,hsome,hsupplement,lastBlock_snoc,supplementOf_snoc]
      rfl
    have hfound : Manager.blockAndParent st ch'.state.index.id = some (b, some {}, ch.state) := by
      rw [Manager.blockAndParent,hblock]
      change (st.state b.parentID).bind _ = _
      rw [hparent,hstate.state]
      rfl
    rw [Manager.pathBlock,hfound]
    change (Manager.overwriteExpirations cfg b {} >>= _) = _
    rw [hordered]
    rfl

/-- The blocks on the way down a branch, each with its place on the branch. -/
theorem Branch.pathBlocks (hset : Setting cfg.crypto m S log) (hch : Branch cfg.crypto m log bl ch)
    (hch' : Branch cfg.crypto m log (bl ++ rest) ch') (hheld : st.Held cfg.crypto m (bl ++ rest)) (hbodies : ∀ id, ¬ st.Pruned id)
    (hordered : ∀ b ∈ taken log, Ordered cfg b) (hdown : Down st.parentIndex ch'.state.index l ch.state.index)
    (hlen : l.length = rest.length) {p q : List ChainIndex} (hl : l = p ++ i :: q) :
    ∃ pre b post ch₁ ch₂, rest = pre ++ b :: post ∧ post.length = p.length ∧
      PathBlock cfg m log st (bl ++ pre) ch₁ b ch₂ i := by
  have hcount := congrArg List.length hl
  rw [List.length_append,List.length_cons] at hcount
  obtain ⟨pre,post,hsplit,hpost⟩ : ∃ pre post, rest = pre ++ post ∧ post.length = p.length + 1 :=
    ⟨rest.take (rest.length - (p.length + 1)),rest.drop (rest.length - (p.length + 1)),(List.take_append_drop _ _).symm,by
      rw [List.length_drop]; omega⟩
  cases post with
  | nil => simp at hpost
  | cons b post =>
    subst hsplit
    rw [List.length_cons,Nat.add_right_cancel_iff] at hpost
    have hassoc : bl ++ (pre ++ b :: post) = bl ++ pre ++ [b] ++ post := by simp
    rw [hassoc] at hch' hheld
    obtain ⟨ch₂,hch₂⟩ := hch'.split
    obtain ⟨l',hl',hlen'⟩ := hch₂.down hset hch' hheld
    rw [hl] at hdown
    obtain ⟨y,hp,hy⟩ := hdown.split
    obtain ⟨-,rfl⟩ := hp.unique hl' (by omega)
    have hi : i = ch₂.state.index := by
      cases hy
      rfl
    subst hi
    have hmem : b ∈ taken log := hch₂.mem b (by simp)
    obtain ⟨ch₁,hblock⟩ := hch₂.pathBlock hset (hheld.of_prefix (List.prefix_append _ _)) (hbodies _) (hordered b hmem)
    exact ⟨pre,b,post,ch₁,ch₂,rfl,hpost,hblock⟩

theorem PathBlock.pass_nil (hset : Setting cfg.crypto m S log)
    (hroom : ∀ bl ch, Branch cfg.crypto m log bl ch → ch.leaves.length ≤ 2^63) (h : PathBlock cfg m log st bl ch b ch' i) :
    Manager.revertSet cfg st [] i = .ok [] ∧ Manager.applySet cfg st [] i = .ok [] := by
  obtain ⟨au,happly⟩ := Chain.extend_applied h.extend ((st.ancestorTimestamp b.parentID).getD default)
  obtain ⟨-,ms,out,hstep⟩ := h.before.blockStep hset h.after h.extend happly
  obtain ⟨ru,hru⟩ := hstep.reverts hset.ideal.inj (hroom _ _ h.before)
  refine ⟨?_,applySet_eq_ok.mpr ⟨b,{},ch.state,ch'.state,au,h.found,happly,rfl⟩⟩
  rw [Manager.revertSet,h.found]
  change (revertBlock cfg.crypto ch.state b {} >>= _) = _
  rw [hru]
  rfl

end Blocks

section Best

variable {j : ChainIndex}

def Store.OnBest (st : Store) (i : ChainIndex) : Prop := st.bestIndex i.height = some i

instance (st : Store) (i : ChainIndex) : Decidable (st.OnBest i) := inferInstanceAs (Decidable (_ = _))

theorem branchIDs_getElem? (c : Crypto) (m : QdayManifest) {n : ℕ} (hn : n ≤ bl.length) :
    (branchIDs c m bl)[n]? = some ((lastBlock m (bl.take n)).id c) := by
  cases n with
  | zero => rfl
  | succ n =>
    have hlt : n < bl.length := hn
    rw [branchIDs,List.getElem?_cons_succ,List.getElem?_map,List.getElem?_eq_getElem hlt,List.take_succ_eq_append_getElem hlt,
      lastBlock_snoc]
    rfl

variable (hset : Setting cfg.crypto m S M.ingested)
include hset

/-- An index is on the best chain if a beginning of the chain leads to it. -/
theorem Manager.At.onBest_iff (h : M.At cfg m bl ch) :
    M.store.OnBest i ↔ ∃ pre ch₀, pre <+: bl ∧ Branch cfg.crypto m M.ingested pre ch₀ ∧ ch₀.state.index = i := by
  have hroom := h.room hset
  rw [Store.OnBest,h.bestIndex]
  constructor
  · intro hbest
    obtain ⟨id,hid,hi⟩ := Option.map_eq_some_iff.mp hbest
    have hle : i.height.toNat ≤ bl.length := by
      have hlt := (List.getElem?_eq_some_iff.mp hid).1
      rw [branchIDs_length] at hlt
      omega
    rw [branchIDs_getElem? _ _ hle,Option.some.injEq] at hid
    have hbranch := h.branch
    rw [← List.take_append_drop i.height.toNat bl] at hbranch
    obtain ⟨ch₀,hch₀⟩ := hbranch.split
    refine ⟨_,ch₀,List.take_prefix _ bl,hch₀,?_⟩
    rw [hch₀.index hset,hid,List.length_take,Nat.min_eq_left hle,UInt64.ofNat_toNat]
    exact hi
  · rintro ⟨pre,ch₀,hpre,hch₀,rfl⟩
    have hheight := hch₀.height hset
    have htake : bl.take pre.length = pre := (List.prefix_iff_eq_take.mp hpre).symm
    rw [hheight,branchIDs_getElem? _ _ hpre.length_le,htake,hch₀.index hset]
    rfl

theorem Manager.At.member_of_onBest (h : M.At cfg m bl ch) (hi : M.store.OnBest i) : M.store.Member (m.genesis.id cfg.crypto) i := by
  obtain ⟨pre,ch₀,hpre,hch₀,rfl⟩ := (h.onBest_iff hset).mp hi
  exact hch₀.member hset (h.held.of_prefix hpre)

theorem Manager.At.down_best (h : M.At cfg m bl ch) (hi : M.store.OnBest i) (hj : M.store.OnBest j) (hle : i.height ≤ j.height) :
    ∃ l, Down M.store.parentIndex j l i := by
  obtain ⟨pre,chi,hpre,hchi,rfl⟩ := (h.onBest_iff hset).mp hi
  obtain ⟨pre',chj,hpre',hchj,rfl⟩ := (h.onBest_iff hset).mp hj
  rw [UInt64.le_iff_toNat_le,hchi.height hset,hchj.height hset] at hle
  obtain ⟨rest,rfl⟩ := List.prefix_of_prefix_length_le hpre hpre' hle
  obtain ⟨l,hl,-⟩ := hchi.down hset hchj (h.held.of_prefix hpre')
  exact ⟨l,hl⟩

theorem Manager.At.onBest_of_down (h : M.At cfg m bl ch) (hj : M.store.OnBest j)
    (hdown : Down M.store.parentIndex j l i) (hi : M.store.Member (m.genesis.id cfg.crypto) i) : M.store.OnBest i := by
  obtain ⟨pre,chj,hpre,hchj,rfl⟩ := (h.onBest_iff hset).mp hj
  obtain ⟨rest,hrest⟩ := hpre
  obtain ⟨pre',post,chi,rfl,-,hchi,rfl⟩ := hchj.of_down hset h.sound.tree (h.held.of_prefix ⟨rest,hrest⟩) hdown hi
  exact (h.onBest_iff hset).mpr ⟨pre',chi,⟨post ++ rest,by rw [← hrest,List.append_assoc]⟩,hchi,rfl⟩

end Best

section Single

variable {genesis : BlockID}

def Manager.updateProofsWithin (cfg : Config) (st : Store) (maxLen : ℕ) (txns : List V2Transaction) (source target : ChainIndex) :
    Outcome (List V2Transaction) :=
  match st.state source.id with
  | none => fail "couldn't find state for basis"
  | some basisState => do
      txns.forM (validateTransactionElements cfg basisState.elements)
      let (revert, apply) ← reorgPath st source target maxLen
      let txns ← revert.foldlM (revertSet cfg st) txns
      let txns ← apply.foldlM (applySet cfg st) txns
      return if source ≠ target then updateQdayEphemeralHeights txns (target.height + 1) else txns

theorem Manager.updateV2TransactionProofs_eq (cfg : Config) (st : Store) (txns : List V2Transaction) (source target : ChainIndex) :
    updateV2TransactionProofs cfg st txns source target = updateProofsWithin cfg st 144 txns source target := rfl

/-- The elements of the transactions pass the check against the state of an index. -/
def Manager.ValidAt (cfg : Config) (st : Store) (txns : List V2Transaction) (source : ChainIndex) : Prop :=
  ∃ basisState, st.state source.id = some basisState ∧ ∀ txn ∈ txns, validateTransactionElements cfg basisState.elements txn = .ok ()

/-- The blocks of the path from one index to another take the transactions to `out`, up to birth heights. -/
def CarriedTo (cfg : Config) (st : Store) (genesis : BlockID) (a b : ChainIndex) (txns out : List V2Transaction) : Prop :=
  ∃ revert apply z mid raw, Meets st genesis a b revert apply z ∧ revert.foldlM (Manager.revertSet cfg st) txns = .ok mid ∧
    apply.reverse.foldlM (Manager.applySet cfg st) mid = .ok raw ∧ Twins raw out

/-- A single update along a path that fits the limit. -/
theorem updateProofsWithin_of_meets (htree : st.HeaderTree genesis) (ha : st.Member genesis a) (hb : st.Member genesis b) (hne : a ≠ b)
    {revert apply : List ChainIndex} (hmeets : Meets st genesis a b revert apply z)
    (hfits : revert.length + apply.length ≤ maxLen) :
    Manager.updateProofsWithin cfg st maxLen txns a b = .ok out ↔ Manager.ValidAt cfg st txns a ∧ ∃ mid raw,
      revert.foldlM (Manager.revertSet cfg st) txns = .ok mid ∧ apply.reverse.foldlM (Manager.applySet cfg st) mid = .ok raw ∧
      updateQdayEphemeralHeights raw (b.height + 1) = out := by
  rw [Manager.updateProofsWithin,Manager.ValidAt]
  cases st.state a.id with
  | none => simp
  | some basisState =>
    dsimp only
    rw [bind_unit_eq_ok,forM_eq_ok,reorgPath_of_meets htree ha hb hmeets hfits,ok_bind]
    simp only [bind_eq_ok,pure_eq_ok,if_pos hne,Option.some.injEq,exists_eq_left']
    refine and_congr Iff.rfl ⟨?_,?_⟩
    · rintro ⟨mid,hmid,raw,hraw,hout⟩
      exact ⟨mid,raw,hmid,hraw,hout⟩
    · rintro ⟨mid,raw,hmid,hraw,hout⟩
      exact ⟨mid,hmid,raw,hraw,hout⟩

theorem CarriedTo.single (htree : st.HeaderTree genesis) (ha : st.Member genesis a) (hb : st.Member genesis b) (hne : a ≠ b)
    (h : CarriedTo cfg st genesis a b txns out) (hvalid : Manager.ValidAt cfg st txns a) :
    ∃ n, ∀ maxLen ≥ n, Manager.updateProofsWithin cfg st maxLen txns a b = .ok (updateQdayEphemeralHeights out (b.height + 1)) := by
  obtain ⟨revert,apply,z,mid,raw,hmeets,hmid,hraw,htwins⟩ := h
  refine ⟨revert.length + apply.length,fun maxLen hfits => ?_⟩
  exact (updateProofsWithin_of_meets htree ha hb hne hmeets hfits).mpr ⟨hvalid,mid,raw,hmid,hraw,htwins.heights _⟩

theorem CarriedTo.of_twins (h : CarriedTo cfg st genesis a b txns out) (htwins : Twins txns txns') :
    CarriedTo cfg st genesis a b txns' out := by
  obtain ⟨revert,apply,z,mid,raw,hmeets,hmid,hraw,hout⟩ := h
  obtain ⟨mid',hmid',hmids⟩ := foldlM_simulates (fun i _ _ _ => revertSet_twins i) htwins hmid
  obtain ⟨raw',hraw',hraws⟩ := foldlM_simulates (fun i _ _ _ => applySet_twins i) hmids hraw
  exact ⟨revert,apply,z,mid',raw',hmeets,hmid',hraw',hraws.symm.trans hout⟩

theorem CarriedTo.back (hdown : Down st.parentIndex a l x)
    (hapart : ∀ y ∈ l, ∀ m', ¬ Down st.parentIndex b m' y) (hfirst : l.foldlM (Manager.revertSet cfg st) txns = .ok txns')
    (h : CarriedTo cfg st genesis x b txns' out) : CarriedTo cfg st genesis a b txns out := by
  obtain ⟨revert,apply,z,mid,raw,hmeets,hmid,hraw,hout⟩ := h
  refine ⟨l ++ revert,apply,z,mid,raw,hmeets.down hdown hapart,?_,hraw,hout⟩
  rw [List.foldlM_append,hfirst]
  exact hmid

theorem CarriedTo.forward (htree : st.HeaderTree genesis) (ha : st.Member genesis a)
    (hx : st.Member genesis x) (hdown : Down st.parentIndex x l a) (hdown' : Down st.parentIndex b l' x) (hb : st.Member genesis b)
    (hfirst : l.reverse.foldlM (Manager.applySet cfg st) txns = .ok txns') (h : CarriedTo cfg st genesis x b txns' out) :
    CarriedTo cfg st genesis a b txns out := by
  obtain ⟨revert,apply,z,mid,raw,hmeets,hmid,hraw,hout⟩ := h
  obtain ⟨rfl,rfl⟩ := hmeets.unique htree hx hb (meets_up hx hdown')
  obtain rfl : txns' = mid := Except.ok.inj hmid
  refine ⟨[],apply ++ l,a,txns,raw,meets_up ha (hdown'.append hdown),rfl,?_,hout⟩
  rw [List.reverse_append,List.foldlM_append,hfirst]
  exact hraw

theorem CarriedTo.nil {bl' : List Block} (hset : Setting cfg.crypto m S M.ingested)
    (h : M.At cfg m bl ch) (hbodies : ∀ id, ¬ M.store.Pruned id) (hordered : ∀ b ∈ taken M.ingested, Ordered cfg b)
    (hroom : ∀ bl ch, Branch cfg.crypto m M.ingested bl ch → ch.leaves.length ≤ 2^63)
    (hch' : Branch cfg.crypto m M.ingested bl' ch') (hheld : M.store.Held cfg.crypto m bl') (hb : M.store.OnBest b) :
    CarriedTo cfg M.store (m.genesis.id cfg.crypto) ch'.state.index b [] [] := by
  obtain ⟨pre,chb,hpre,hchb,rfl⟩ := (h.onBest_iff hset).mp hb
  have hpass : ∀ {bl : List Block} {ch : Chain} {l : List ChainIndex} {z : ChainIndex}, Branch cfg.crypto m M.ingested bl ch →
      M.store.Held cfg.crypto m bl → Down M.store.parentIndex ch.state.index l z → M.store.Member (m.genesis.id cfg.crypto) z →
      ∀ i ∈ l, Manager.revertSet cfg M.store [] i = .ok [] ∧ Manager.applySet cfg M.store [] i = .ok [] := by
    intro bl ch l z hch hheld hdown hz i hi
    obtain ⟨pre,post,chz,rfl,hlen,hchz,rfl⟩ := hch.of_down hset h.sound.tree hheld hdown hz
    obtain ⟨p,q,rfl⟩ := List.append_of_mem hi
    obtain ⟨_,_,_,_,_,-,-,hblock⟩ := hchz.pathBlocks hset hch hheld hbodies hordered hdown hlen.symm rfl
    exact hblock.pass_nil hset hroom
  have hfold : ∀ {f : List V2Transaction → ChainIndex → Outcome (List V2Transaction)} {l : List ChainIndex},
      (∀ i ∈ l, f [] i = .ok []) → l.foldlM f [] = .ok [] := by
    intro f l hl
    obtain ⟨_,hrun,rfl⟩ := foldlM_induct (f := f) (P := fun _ txns => txns = []) (l := l)
      (fun p i q txns hsplit htxns => ⟨[],by rw [htxns,hl i (by simp [hsplit])],rfl⟩) rfl
    exact hrun
  obtain ⟨revert,apply,z,hmeets,-⟩ := reorgPath_members h.sound.tree (hch'.member hset hheld) (h.member_of_onBest hset hb)
  refine ⟨revert,apply,z,[],[],hmeets,hfold fun i hi => ?_,hfold fun i hi => ?_,.nil⟩
  · exact (hpass hch' hheld hmeets.left hmeets.member i hi).1
  · exact (hpass hchb (h.held.of_prefix hpre) hmeets.right hmeets.member i (List.mem_reverse.mp hi)).2

end Single

end QdayNode
