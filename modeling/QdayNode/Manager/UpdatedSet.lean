import QdayNode.Manager.ProofPaths

/-!
# Sets of transactions on another block

`updateV2TransactionProofs` from one block of the tree to another: which transactions
remain, and what becomes of their inputs.  An input with a proof keeps a right proof over
every block of the path; an input without one waits for the block that creates its output,
takes over the element that the block reports, and is updated like the others from then on.
-/
namespace QdayNode
open Ancestry ByteString MerkleForest Procedure Outcome

variable {c : Crypto} {update : StateElement → Outcome StateElement} {α β : Type} {txn : V2Transaction}
  {e e' : StateElement} {R : α → β → Prop} {cfg : Config} {m : QdayManifest} {S : Set Bytes} {M : Manager}
  {log : List Ingestion} {st : Store} {bl pre done old new : List Block} {b : Block} {ch ch' chO chN chP : Chain} {i : ChainIndex}
  {txns out : List V2Transaction} {sci sci' : V2SiacoinInput} {au : ApplyUpdate} {ms : MidState} {l : List ChainIndex}

section Transactions

variable {numLeaves : UInt64} {l : List α}

theorem encodeList_congr {enc : α → Bytes} {l' : List α} (h : l.map enc = l'.map enc) :
    encodeList enc l = encodeList enc l' := by
  have hl := encodeList_map id enc l
  have hl' := encodeList_map id enc l'
  rw [h] at hl
  exact hl.trans hl'.symm

theorem Updated.leafIndex (hupdate : ∀ e e', update e = .ok e' → e'.leafIndex = e.leafIndex)
    (h : Updated update numLeaves e e') : e'.leafIndex = e.leafIndex := by
  rw [Updated] at h
  split_ifs at h with hunassigned
  · rw [h]
  · exact hupdate e e' h.2

theorem V2Transaction.id_update {f : ℕ → StateElement → StateElement}
    (hf : ∀ j e, (txn.elements c)[j]? = some e → (f j e).leafIndex = e.leafIndex) :
    ((transactionPlaces c).update f 0 txn).id c = txn.id c := by
  have htrue : ∀ {X : Type} (P : Places X Hash256 StateElement) (l : List X) (s : ℕ) (j : ℕ) (p : Hash256 × StateElement),
      (l.flatMap P.get)[j]? = some p → True := fun _ _ _ _ _ _ => trivial
  have hinputs : ∀ s, encodeList (fun sci : V2SiacoinInput => sci.parent.id.val) ((siacoinInputPlaces c).list.update f s txn.siacoinInputs) =
      encodeList (fun sci => sci.parent.id.val) txn.siacoinInputs := fun s =>
    encodeList_congr (Places.map_updateList (Q := fun _ _ => True) (fun _ _ _ => rfl) (htrue _ _ s))
  have hfunds : ∀ s, encodeList (fun sfi : V2SiafundInput => sfi.parent.id.val) ((siafundInputPlaces c).list.update f s txn.siafundInputs) =
      encodeList (fun sfi => sfi.parent.id.val) txn.siafundInputs := fun s =>
    encodeList_congr (Places.map_updateList (Q := fun _ _ => True) (fun _ _ _ => rfl) (htrue _ _ s))
  have hrevisions : ∀ s, encodeList (fun fcr : V2FileContractRevision => fcr.parent.id.val ++ fcr.revision.nilSigs.encode)
      ((revisionPlaces c).list.update f s txn.fileContractRevisions) =
      encodeList (fun fcr => fcr.parent.id.val ++ fcr.revision.nilSigs.encode) txn.fileContractRevisions := fun s =>
    encodeList_congr (Places.map_updateList (Q := fun _ _ => True) (fun _ _ _ => rfl) (htrue _ _ s))
  -- a storage proof shows the position of its chain index
  have hresolutions : encodeList (fun fcr : V2FileContractResolution => fcr.parent.id.val ++ fcr.resolution.normalize.encode)
      ((resolutionPlaces c).list.update f (0 + ((siacoinInputPlaces c).list.get txn.siacoinInputs).length +
        ((siafundInputPlaces c).list.get txn.siafundInputs).length + ((revisionPlaces c).list.get txn.fileContractRevisions).length)
        txn.fileContractResolutions) =
      encodeList (fun fcr => fcr.parent.id.val ++ fcr.resolution.normalize.encode) txn.fileContractResolutions := by
    refine encodeList_congr (Places.map_updateList (Q := fun j e => (f j e).leafIndex = e.leafIndex) (fun s fcr hfcr => ?_) ?_)
    · cases fcr with
      | mk parent resolution =>
        cases resolution with
        | storageProof sp =>
          have hsame : (f (s + 1) sp.proofIndex.stateElement).leafIndex = sp.proofIndex.stateElement.leafIndex := hfcr 1 _ rfl
          change parent.id.val ++ (V2FileContractResolutionType.storageProof { sp with
            proofIndex.stateElement := ⟨(f (s + 1) sp.proofIndex.stateElement).leafIndex,[]⟩ }).encode = _
          rw [hsame]
          rfl
        | renewal r => rfl
        | expiration => rfl
    · intro j p hj
      have hp : (txn.elements c)[((siacoinInputPlaces c).list.get txn.siacoinInputs).length +
          (((siafundInputPlaces c).list.get txn.siafundInputs).length +
            (((revisionPlaces c).list.get txn.fileContractRevisions).length + j))]? = some p.2 := by
        simp only [V2Transaction.elements,transactionPlaces,Places.within,Places.prod,List.map_append]
        rw [List.getElem?_append_right (by simp),List.length_map,Nat.add_sub_cancel_left,List.getElem?_append_right (by simp),
          List.length_map,Nat.add_sub_cancel_left,List.getElem?_append_right (by simp),List.length_map,Nat.add_sub_cancel_left,
          List.getElem?_map]
        exact congrArg (Option.map Prod.snd) hj
      have hsame := hf _ _ hp
      rwa [← Nat.add_assoc,← Nat.add_assoc,← Nat.zero_add ((siacoinInputPlaces c).list.get txn.siacoinInputs).length] at hsame
  simp only [V2Transaction.id,V2Transaction.idPreimage,V2Transaction.encodeSemantics,transactionPlaces,Places.within,Places.prod]
  rw [hinputs,hfunds,hrevisions,hresolutions]

def V2SiacoinInput.withElement (e : StateElement) (sci : V2SiacoinInput) : V2SiacoinInput := { sci with parent.stateElement := e }

def V2SiafundInput.withElement (e : StateElement) (sfi : V2SiafundInput) : V2SiafundInput := { sfi with parent.stateElement := e }

theorem V2Transaction.elements_siafund {j : ℕ} {sfi : V2SiafundInput} (h : txn.siafundInputs[j]? = some sfi) :
    (txn.elements c)[((siacoinInputPlaces c).list.get txn.siacoinInputs).length + j]? = some sfi.parent.stateElement := by
  have hget : (txn.siafundInputs.flatMap (siafundInputPlaces c).get).map Prod.snd =
      txn.siafundInputs.map fun sfi => sfi.parent.stateElement := by
    rw [List.map_flatMap]
    exact List.flatMap_pure_eq_map _ _
  have hlt := (List.getElem?_eq_some_iff.mp h).1
  simp only [V2Transaction.elements,transactionPlaces,Places.within,Places.prod,List.map_append]
  rw [List.getElem?_append_right (by simp),List.length_map,Nat.add_sub_cancel_left]
  simp only [Places.list,hget]
  rw [List.getElem?_append_left (by rwa [List.length_map]),List.getElem?_map,h]
  rfl

/-- What `updateTxnProofs` makes of a transaction. -/
structure TxnUpdated (c : Crypto) (update : StateElement → Outcome StateElement) (numLeaves : UInt64) (txn txn' : V2Transaction) :
    Prop where
  id : txn'.id c = txn.id c
  elements : List.Forall₂ (Updated update numLeaves) (txn.elements c) (txn'.elements c)
  coins : List.Forall₂ (fun sci sci' => ∃ e, Updated update numLeaves sci.parent.stateElement e ∧ sci' = sci.withElement e)
    txn.siacoinInputs txn'.siacoinInputs
  funds : List.Forall₂ (fun sfi sfi' => ∃ e, Updated update numLeaves sfi.parent.stateElement e ∧ sfi' = sfi.withElement e)
    txn.siafundInputs txn'.siafundInputs

theorem forall₂_mapIdx {f : ℕ → α → β} (h : ∀ j a, l[j]? = some a → R a (f j a)) :
    List.Forall₂ R l (l.mapIdx f) := by
  refine List.forall₂_iff_get.mpr ⟨List.length_mapIdx.symm,fun j hj _ => ?_⟩
  simp only [List.get_eq_getElem,List.getElem_mapIdx]
  exact h j _ (List.getElem?_eq_getElem hj)

theorem updateTxnProofs_updated (hupdate : ∀ e e', update e = .ok e' → e'.leafIndex = e.leafIndex) {txn' : V2Transaction}
    (h : updateTxnProofs c txn update numLeaves = .ok (some txn')) : TxnUpdated c update numLeaves txn txn' := by
  obtain ⟨es,hes,rfl⟩ := updateTxnProofs_eq_some.mp h
  have hlength := hes.length_eq
  have hat : ∀ j e, (txn.elements c)[j]? = some e → Updated update numLeaves e (es.getD j e) := by
    intro j e hj
    obtain ⟨hlt,rfl⟩ := List.getElem?_eq_some_iff.mp hj
    have hlt' : j < es.length := hlength ▸ hlt
    rw [List.getD_eq_getElem?_getD,List.getElem?_eq_getElem hlt',Option.getD_some]
    exact hes.get hlt hlt'
  refine ⟨V2Transaction.id_update fun j e hj => (hat j e hj).leafIndex hupdate,?_,?_,?_⟩
  · have hget : ((transactionPlaces c).update (fun i e => es.getD i e) 0 txn).elements c =
        (txn.elements c).mapIdx fun i e => es.getD i e := by
      rw [V2Transaction.elements,(transactionPlaces c).get_update,Places.rewrite,V2Transaction.elements]
      refine List.ext_getElem? fun j => ?_
      simp only [List.getElem?_map,List.getElem?_mapIdx,Option.map_map,Nat.zero_add]
      rfl
    rw [hget]
    exact forall₂_mapIdx hat
  · have hinputs : ((transactionPlaces c).update (fun i e => es.getD i e) 0 txn).siacoinInputs =
        txn.siacoinInputs.mapIdx fun j sci => sci.withElement (es.getD j sci.parent.stateElement) := by
      change (siacoinInputPlaces c).updateList _ 0 _ = _
      rw [Places.updateList_single (fun _ => rfl)]
      simp only [Nat.zero_add]
      rfl
    rw [hinputs]
    exact forall₂_mapIdx fun j sci hj => ⟨_,hat j _ (V2Transaction.elements_input hj),rfl⟩
  · have hinputs : ((transactionPlaces c).update (fun i e => es.getD i e) 0 txn).siafundInputs =
        txn.siafundInputs.mapIdx fun j sfi => sfi.withElement (es.getD
          (((siacoinInputPlaces c).list.get txn.siacoinInputs).length + j) sfi.parent.stateElement) := by
      change (siafundInputPlaces c).updateList _ (0 + _) _ = _
      rw [Places.updateList_single (fun _ => rfl)]
      simp only [Nat.zero_add]
      rfl
    rw [hinputs]
    exact forall₂_mapIdx fun j sfi hj => ⟨_,hat _ _ (V2Transaction.elements_siafund hj),rfl⟩

end Transactions

section Safety

variable {numLeaves : UInt64}

/-- Every element with a position is proved on the chain. -/
def Proved (c : Crypto) (ch : Chain) (txns : List V2Transaction) : Prop :=
  ∀ txn ∈ txns, ∀ e ∈ txn.elements c, e.leafIndex ≠ unassignedLeafIndex → ValidProof c (ch.hashes c) e

theorem updateElements_returns {es : List StateElement}
    (h : ∀ e ∈ es, e.leafIndex ≠ unassignedLeafIndex → e.leafIndex < numLeaves → ∃ e', update e = .ok e') :
    ∃ r, updateElements update numLeaves es = .ok r := by
  induction es with
  | nil => exact ⟨_,rfl⟩
  | cons e es ih =>
    obtain ⟨he,hes⟩ := List.forall_mem_cons.mp h
    obtain ⟨r,hr⟩ := ih hes
    rw [updateElements]
    split_ifs with hunassigned hlt
    · rw [hr]
      exact ⟨_,rfl⟩
    · obtain ⟨e',he'⟩ := he hunassigned hlt
      rw [he',hr]
      exact ⟨_,rfl⟩
    · exact ⟨_,rfl⟩

theorem updateSetProofs_returns
    (h : ∀ txn ∈ txns, ∀ e ∈ txn.elements cfg.crypto, e.leafIndex ≠ unassignedLeafIndex → e.leafIndex < numLeaves →
      ∃ e', update e = .ok e') : Returns (Manager.updateSetProofs cfg update numLeaves txns) := by
  refine returns_mapM fun txn htxn => ?_
  obtain ⟨r,hr⟩ := updateElements_returns (h txn htxn)
  have hrun : updateTxnProofs cfg.crypto txn update numLeaves =
      .ok (r.map fun es => (transactionPlaces cfg.crypto).update (fun i e => es.getD i e) 0 txn) := by
    rw [updateTxnProofs]
    change (updateElements update numLeaves (txn.elements cfg.crypto) >>= _) = _
    rw [hr]
    rfl
  rw [hrun,ok_bind]
  cases r with
  | none => exact returns_fail _
  | some es => exact returns_ok _

theorem updateSetProofs_updated (hupdate : ∀ e e', update e = .ok e' → e'.leafIndex = e.leafIndex)
    (h : Manager.updateSetProofs cfg update numLeaves txns = .ok out) :
    List.Forall₂ (TxnUpdated cfg.crypto update numLeaves) txns out :=
  (updateSetProofs_eq_ok.mp h).imp fun _ _ => updateTxnProofs_updated hupdate

theorem proved_of_updated (hupdate : ∀ e e', update e = .ok e' → e'.leafIndex = e.leafIndex)
    (h : List.Forall₂ (TxnUpdated c update numLeaves) txns out)
    (hproof : ∀ txn ∈ txns, ∀ e ∈ txn.elements c, e.leafIndex ≠ unassignedLeafIndex → e.leafIndex < numLeaves →
      ∀ e', update e = .ok e' → ValidProof c (ch.hashes c) e') : Proved c ch out := by
  intro txn' htxn' e' he' hassigned
  obtain ⟨n,hn⟩ := List.mem_iff_getElem?.mp htxn'
  obtain ⟨hlt',hget⟩ := List.getElem?_eq_some_iff.mp hn
  have hlt : n < txns.length := h.length_eq ▸ hlt'
  have htxn := h.get hlt hlt'
  simp only [List.get_eq_getElem,hget] at htxn
  obtain ⟨j,hj⟩ := List.mem_iff_getElem?.mp he'
  obtain ⟨hjlt',hjget⟩ := List.getElem?_eq_some_iff.mp hj
  have hjlt : j < (txns[n].elements c).length := htxn.elements.length_eq ▸ hjlt'
  have hat := htxn.elements.get hjlt hjlt'
  simp only [List.get_eq_getElem,hjget] at hat
  have hindex := hat.leafIndex hupdate
  rw [Updated,if_neg (hindex ▸ hassigned)] at hat
  exact hproof _ (List.getElem_mem hlt) _ (List.getElem_mem hjlt) (hindex ▸ hassigned) hat.1 _ hat.2

theorem confirm_cases (created : List (Hash256 × StateElement)) (id : Hash256) (e : StateElement) :
    (confirm created id e = e ∧ (e.leafIndex = unassignedLeafIndex → id ∉ created.map Prod.fst)) ∨
      (e.leafIndex = unassignedLeafIndex ∧ (id, confirm created id e) ∈ created) := by
  by_cases hassigned : e.leafIndex ≠ unassignedLeafIndex
  · refine .inl ⟨?_,fun h => absurd h hassigned⟩
    rw [confirm,if_pos hassigned]
  · rw [confirm,if_neg hassigned]
    cases hfind : created.reverse.find? fun p => p.1 = id with
    | none =>
      refine .inl ⟨rfl,fun _ hmem => ?_⟩
      obtain ⟨p,hp,rfl⟩ := List.mem_map.mp hmem
      have hno := List.find?_eq_none.mp hfind p (List.mem_reverse.mpr hp)
      simp at hno
    | some p =>
      have hfound := List.find?_some hfind
      have hid : p.1 = id := of_decide_eq_true hfound
      have hp := List.mem_reverse.mp (List.mem_of_find?_eq_some hfind)
      exact .inr ⟨not_not.mp hassigned,hid ▸ hp⟩

theorem V2SiacoinInput.confirmAt_assigned (created : List (Hash256 × StateElement)) (height : UInt64)
    (h : sci.parent.stateElement.leafIndex ≠ unassignedLeafIndex) : sci.confirmAt created height = sci := by
  rw [confirmAt]
  dsimp only
  rw [if_neg fun hboth => h hboth.1,replaceElement,confirm,if_pos h]

theorem V2SiacoinInput.confirmAt_same (created : List (Hash256 × StateElement)) (height : UInt64)
    (h : confirm created sci.parent.id sci.parent.stateElement = sci.parent.stateElement) : sci.confirmAt created height = sci := by
  have hreplace : sci.replaceElement (confirm created) = sci := by
    rw [replaceElement,h]
  rw [confirmAt,hreplace]
  exact if_neg fun hboth => hboth.2 hboth.1

theorem V2SiacoinInput.confirmAt_new (created : List (Hash256 × StateElement)) (height : UInt64)
    (hunassigned : sci.parent.stateElement.leafIndex = unassignedLeafIndex)
    (hassigned : (confirm created sci.parent.id sci.parent.stateElement).leafIndex ≠ unassignedLeafIndex) :
    sci.confirmAt created height = { sci with
      parent.stateElement := confirm created sci.parent.id sci.parent.stateElement
      parent.maturityHeight := height } := if_pos ⟨hunassigned,hassigned⟩

theorem BlockStep.mem_createdCoins {out : AppliedLeaves}
    (hstep : BlockStep c m S bl ch b ch' au ms out) {id : Hash256} : (id, e) ∈ au.createdCoins ↔
      ∃ d ∈ au.diffs.sces, d.created = true ∧ d.siacoinElement.id = id ∧ d.siacoinElement.stateElement = e := by
  have hfunds : au.diffs.sfes = [] := by
    rw [hstep.applied.diffs]
    change ms.sfes.mapIdx _ = _
    rw [hstep.applied.tracked.coinsOnly.1]
    rfl
  rw [ApplyUpdate.createdCoins,BlockDiffs.created]
  simp only [hfunds,List.filter_nil,List.map_nil,List.append_nil,List.mem_map,List.mem_filter,Prod.mk.injEq]
  constructor
  · rintro ⟨d,⟨hd,hcreated⟩,hid,he⟩
    exact ⟨d,hd,hcreated,hid,he⟩
  · rintro ⟨d,hd,hcreated,hid,he⟩
    exact ⟨d,⟨hd,hcreated⟩,hid,he⟩

theorem BlockStep.created_of_id {out : AppliedLeaves}
    (hstep : BlockStep c m S bl ch b ch' au ms out) {id : Hash256} (hid : id ∈ b.createdIDs c) : ∃ e, (id, e) ∈ au.createdCoins := by
  rw [← Block.map_id_coins c b] at hid
  obtain ⟨k,hk,rfl⟩ := List.mem_map.mp hid
  obtain ⟨d,hd,hcreated,hcoin⟩ := hstep.created_iff_coin.mpr hk
  exact ⟨_,hstep.mem_createdCoins.mpr ⟨d,hd,hcreated,congrArg Coin.id hcoin,rfl⟩⟩

theorem V2Transaction.id_confirmInputs (created : List (Hash256 × StateElement)) (height : UInt64) (txn : V2Transaction) :
    (txn.confirmInputs created height).id c = txn.id c := by
  have hcoins : encodeList (fun sci : V2SiacoinInput => sci.parent.id.val)
      (txn.siacoinInputs.map (V2SiacoinInput.confirmAt created height)) =
      encodeList (fun sci => sci.parent.id.val) txn.siacoinInputs := by
    refine encodeList_congr ?_
    rw [List.map_map]
    refine List.map_congr_left fun sci _ => ?_
    rw [Function.comp_apply,V2SiacoinInput.confirmAt]
    split_ifs
    · rfl
    · rfl
  have hfunds : encodeList (fun sfi : V2SiafundInput => sfi.parent.id.val) (txn.siafundInputs.map fun si =>
      { si with parent.stateElement := confirm created si.parent.id si.parent.stateElement }) =
      encodeList (fun sfi => sfi.parent.id.val) txn.siafundInputs := by
    refine encodeList_congr ?_
    rw [List.map_map]
    rfl
  simp only [V2Transaction.id,V2Transaction.idPreimage,V2Transaction.encodeSemantics,V2Transaction.confirmInputs,hcoins,hfunds]

theorem PathBlock.steps (hset : Setting cfg.crypto m S log) (hroom : ∀ bl ch, Branch cfg.crypto m log bl ch → ch.leaves.length ≤ 2^63)
    (h : PathBlock cfg m log st bl ch b ch' i) (t : Time) :
    ∃ au ms out ru, applyBlock cfg.crypto ch.state b {} t = .ok (ch'.state, au) ∧ BlockStep cfg.crypto m S bl ch b ch' au ms out ∧
      revertBlock cfg.crypto ch.state b {} = .ok ru := by
  obtain ⟨au,happly⟩ := Chain.extend_applied h.extend t
  obtain ⟨-,ms,out,hstep⟩ := h.before.blockStep hset h.after h.extend happly
  obtain ⟨ru,hru⟩ := hstep.reverts hset.ideal.inj (hroom _ _ h.before)
  exact ⟨au,ms,out,ru,happly,hstep,hru⟩

section Blocks

variable (hset : Setting cfg.crypto m S log) (hroom : ∀ bl ch, Branch cfg.crypto m log bl ch → ch.leaves.length ≤ 2^63)
  (h : PathBlock cfg m log st bl ch b ch' i)
include hset hroom h

theorem PathBlock.revert_proved (hproved : Proved cfg.crypto ch' txns) : Returns (Manager.revertSet cfg st txns i) ∧
    ∀ out, Manager.revertSet cfg st txns i = .ok out → Proved cfg.crypto ch out := by
  obtain ⟨au,ms,out,ru,-,hstep,hru⟩ := h.steps hset hroom default
  have hrun : Manager.revertSet cfg st txns i =
      Manager.updateSetProofs cfg (ru.updateElementProof cfg.crypto) ch.state.elements.numLeaves txns := by
    rw [Manager.revertSet,h.found]
    change (revertBlock cfg.crypto ch.state b {} >>= _) = _
    rw [hru]
    rfl
  have hback : ∀ txn ∈ txns, ∀ e ∈ txn.elements cfg.crypto, e.leafIndex ≠ unassignedLeafIndex →
      e.leafIndex < ch.state.elements.numLeaves →
      ∃ e', ru.updateElementProof cfg.crypto e = .ok e' ∧ ValidProof cfg.crypto (ch.hashes cfg.crypto) e' := by
    intro txn htxn e he hassigned hlt
    rw [UInt64.lt_iff_toNat_lt,hstep.before.numLeaves] at hlt
    exact hstep.back hset.ideal.inj hru hassigned hlt (hproved txn htxn e he hassigned)
  rw [hrun]
  refine ⟨updateSetProofs_returns fun txn htxn e he hassigned hlt => ?_,fun out hout => ?_⟩
  · obtain ⟨e',he',-⟩ := hback txn htxn e he hassigned hlt
    exact ⟨e',he'⟩
  · refine proved_of_updated (fun _ _ => RevertUpdate.updateElementProof_leafIndex)
      (updateSetProofs_updated (fun _ _ => RevertUpdate.updateElementProof_leafIndex) hout) fun txn htxn e he hassigned hlt e' he' => ?_
    obtain ⟨e₁,he₁,hvalid⟩ := hback txn htxn e he hassigned hlt
    rwa [Except.ok.inj (he'.symm.trans he₁)]

end Blocks

end Safety

section Inputs

variable {sci₀ : V2SiacoinInput} {flag : Bool}

/-- An input whose output the chain stores, with a right proof. -/
structure InputProved (c : Crypto) (ch : Chain) (flag : Bool) (sci : V2SiacoinInput) : Prop where
  assigned : sci.parent.stateElement.leafIndex ≠ unassignedLeafIndex
  leaf : ch.leaves[sci.parent.stateElement.leafIndex.toNat]? = some ⟨.coin sci.parent.coin, flag⟩
  proof : ValidProof c (ch.hashes c) sci.parent.stateElement

theorem InputProved.contains (hvalid : Chain.Valid c m S bl ch) (h : InputProved c ch flag sci) :
    ch.state.elements.containsLeaf c (siacoinLeaf c 0 sci.parent flag) = true := by
  refine hvalid.represents.containsLeaf h.proof ?_
  have hrecord : (ch.leaves.map (StoredLeaf.record c))[sci.parent.stateElement.leafIndex.toNat]? =
      some (StoredLeaf.record c ⟨.coin sci.parent.coin,flag⟩) := by
    rw [List.getElem?_map,h.leaf]
    rfl
  have hhash := leafFn_leafHashes (c := c) hrecord
  rw [LeafRecord.preimage,UInt64.ofNat_toNat] at hhash
  exact hhash

theorem inputProved_of_contains (hinj : Set.InjOn c.sum256 S) (hvalid : Chain.Valid c m S bl ch)
    (hforest : ∀ x ∈ forestMessages c (ch.leaves.map (StoredLeaf.record c)), x ∈ S) (hmessages : ∀ x ∈ sci.messages c, x ∈ S)
    (hassigned : sci.parent.stateElement.leafIndex ≠ unassignedLeafIndex)
    (hcontains : ch.state.elements.containsUnspentSiacoinElement c sci.parent = true) : InputProved c ch false sci := by
  rw [V2SiacoinInput.messages,List.forall_mem_cons] at hmessages
  obtain ⟨hrecord,hproof⟩ := mem_of_containsLeaf hvalid.represents hinj hforest hmessages.2 hcontains
  exact ⟨hassigned,hvalid.leaves.stored_of_record hinj hmessages.1 hrecord,hproof⟩

/-- An input of a set, once the blocks `done` have been applied after `pre`. -/
inductive InputCarried (c : Crypto) (m : QdayManifest) (pre done : List Block) (ch : Chain) (sci₀ : V2SiacoinInput) : V2SiacoinInput → Prop
  | kept {e : StateElement} (hassigned : sci₀.parent.stateElement.leafIndex ≠ unassignedLeafIndex)
      (hindex : e.leafIndex = sci₀.parent.stateElement.leafIndex)
      (hproved : InputProved c ch (decide (sci₀.parent.id ∈ inputIDs (done.flatMap Block.v2Transactions))) (sci₀.withElement e)) :
      InputCarried c m pre done ch sci₀ (sci₀.withElement e)
  | waiting (hunassigned : sci₀.parent.stateElement.leafIndex = unassignedLeafIndex) (hno : ∀ b ∈ done, sci₀.parent.id ∉ b.createdIDs c) :
      InputCarried c m pre done ch sci₀ sci₀
  | promoted {e : StateElement} {l r : List Block} {b : Block} {k : Coin}
      (hunassigned : sci₀.parent.stateElement.leafIndex = unassignedLeafIndex) (hdone : done = l ++ b :: r)
      (hcreated : k ∈ b.coins c (UInt64.ofNat ((pre ++ l).length + 1)) m.network.maturityDelay) (hid : k.id = sci₀.parent.id)
      (hassigned : e.leafIndex ≠ unassignedLeafIndex)
      (hleaf : ch.leaves[e.leafIndex.toNat]? =
        some ⟨.coin k, decide (sci₀.parent.id ∈ inputIDs (done.flatMap Block.v2Transactions))⟩)
      (hproof : EphemeralProofsEmpty b → ValidProof c (ch.hashes c) e) :
      InputCarried c m pre done ch sci₀
        { sci₀ with parent.stateElement := e, parent.maturityHeight := UInt64.ofNat ((pre ++ l).length + 1) }

section Step

variable {out : AppliedLeaves}

theorem mem_inputIDs_snoc {id : SiacoinOutputID} : id ∈ inputIDs ((done ++ [b]).flatMap Block.v2Transactions) ↔
    id ∈ inputIDs (done.flatMap Block.v2Transactions) ∨ id ∈ inputIDs b.v2Transactions := by
  simp [inputIDs]

variable {ru : RevertUpdate}

theorem InputProved.back (hinj : Set.InjOn c.sum256 S) (hstep : BlockStep c m S bl ch b ch' au ms out)
    (hru : revertBlock c ch.state b {} = .ok ru) (h : InputProved c ch' false sci)
    (he : Updated (ru.updateElementProof c) ch.state.elements.numLeaves sci.parent.stateElement e) :
    InputProved c ch false (sci.withElement e) ∧ sci.parent.id ∉ b.createdIDs c := by
  have hindex := he.leafIndex fun _ _ => RevertUpdate.updateElementProof_leafIndex
  rw [Updated,if_neg h.assigned,UInt64.lt_iff_toNat_lt,hstep.before.numLeaves] at he
  obtain ⟨hlt,hupdate⟩ := he
  obtain ⟨hleaf,hnot⟩ := hstep.leaf_unspent hlt h.leaf
  obtain ⟨e',he',hproof⟩ := hstep.back hinj hru h.assigned hlt h.proof
  obtain rfl := Except.ok.inj (hupdate.symm.trans he')
  refine ⟨⟨hindex ▸ h.assigned,?_,hproof⟩,hnot⟩
  rw [← hindex] at hleaf
  exact hleaf

theorem InputCarried.back (hinj : Set.InjOn c.sum256 S) (hstep : BlockStep c m S bl ch b ch' au ms out)
    (hru : revertBlock c ch.state b {} = .ok ru) (h : InputCarried c m pre [] ch' sci₀ sci)
    (he : Updated (ru.updateElementProof c) ch.state.elements.numLeaves sci.parent.stateElement e) :
    InputCarried c m pre [] ch sci₀ (sci.withElement e) ∧
      (sci₀.parent.stateElement.leafIndex ≠ unassignedLeafIndex → sci₀.parent.id ∉ b.createdIDs c) := by
  cases h with
  | kept hassigned hindex hproved =>
    obtain ⟨hback,hnot⟩ := hproved.back hinj hstep hru he
    have hindex' := he.leafIndex fun _ _ => RevertUpdate.updateElementProof_leafIndex
    exact ⟨.kept hassigned (hindex'.trans hindex) hback,fun _ => hnot⟩
  | waiting hunassigned hno =>
    rw [Updated,if_pos hunassigned] at he
    subst he
    exact ⟨.waiting hunassigned hno,fun hassigned => absurd hunassigned hassigned⟩
  | promoted _ hdone => simp at hdone

theorem leaf_forward (hstep : BlockStep c m S (pre ++ done) ch b ch' au ms out) (hshort : ch'.leaves.length ≤ 2^63)
    {k : Coin} (hassigned : e.leafIndex ≠ unassignedLeafIndex)
    (hleaf : ch.leaves[e.leafIndex.toNat]? = some ⟨.coin k, decide (k.id ∈ inputIDs (done.flatMap Block.v2Transactions))⟩)
    (hupdate : Updated (au.updateElementProof c) ch'.state.elements.numLeaves e e') :
    e'.leafIndex = e.leafIndex ∧
      ch'.leaves[e'.leafIndex.toNat]? = some ⟨.coin k, decide (k.id ∈ inputIDs ((done ++ [b]).flatMap Block.v2Transactions))⟩ ∧
      (ValidProof c (ch.hashes c) e → ValidProof c (ch'.hashes c) e') := by
  have hindex := hupdate.leafIndex fun _ _ => ApplyUpdate.updateElementProof_leafIndex
  refine ⟨hindex,?_,fun hproof => ?_⟩
  · rw [hindex,hstep.leaf_kept hleaf,← Bool.decide_or,decide_eq_decide.mpr mem_inputIDs_snoc]
  · rw [Updated,if_neg hassigned] at hupdate
    obtain ⟨e₁,he₁,hvalid⟩ := hstep.forward (by omega) hassigned hproof
    rwa [Except.ok.inj (hupdate.2.symm.trans he₁)]

theorem spent_since (hstep : BlockStep c m S (pre ++ done) ch b ch' au ms out) {id : SiacoinOutputID} (hid : id ∈ b.createdIDs c) :
    id ∈ inputIDs ((done ++ [b]).flatMap Block.v2Transactions) ↔ id ∈ inputIDs b.v2Transactions := by
  rw [mem_inputIDs_snoc]
  refine or_iff_right fun hspent => hstep.created_fresh hid (hstep.before.ledger.consumed_created id ?_)
  rw [List.flatMap_append,inputIDs,List.flatMap_append]
  exact List.mem_append_right _ hspent

theorem InputCarried.step (hinj : Set.InjOn c.sum256 S) (hstep : BlockStep c m S (pre ++ done) ch b ch' au ms out)
    (hshort : ch'.leaves.length ≤ 2^63) (h : InputCarried c m pre done ch sci₀ sci)
    (he : Updated (au.updateElementProof c) ch'.state.elements.numLeaves
      (sci.confirmAt au.createdCoins ch'.state.index.height).parent.stateElement e) :
    InputCarried c m pre (done ++ [b]) ch' sci₀ ((sci.confirmAt au.createdCoins ch'.state.index.height).withElement e) := by
  cases h with
  | @kept e₀ hassigned hindex hproved =>
    have hsame : (sci₀.withElement e₀).confirmAt au.createdCoins ch'.state.index.height = sci₀.withElement e₀ :=
      V2SiacoinInput.confirmAt_assigned _ _ hproved.assigned
    rw [hsame] at he ⊢
    obtain ⟨hindex',hleaf,hproof⟩ := leaf_forward hstep hshort hproved.assigned hproved.leaf he
    refine .kept hassigned (hindex'.trans hindex) ⟨?_,hleaf,hproof hproved.proof⟩
    exact fun heq => hproved.assigned (hindex'.symm.trans heq)
  | waiting hunassigned hno =>
    rcases confirm_cases au.createdCoins sci.parent.id sci.parent.stateElement with ⟨hsame,hnot⟩ | ⟨-,hmem⟩
    · -- the block does not create the output
      have hstay : sci.confirmAt au.createdCoins ch'.state.index.height = sci :=
        V2SiacoinInput.confirmAt_same _ _ hsame
      rw [hstay] at he ⊢
      rw [Updated,if_pos hunassigned] at he
      subst he
      refine .waiting hunassigned fun b' hb' => ?_
      rcases List.mem_append.mp hb' with hb' | hb'
      · exact hno b' hb'
      · rw [List.mem_singleton.mp hb']
        intro hid
        obtain ⟨e,he⟩ := hstep.created_of_id hid
        exact hnot hunassigned (List.mem_map_of_mem he)
    · -- the element is taken over from the block
      obtain ⟨d,hd,hcreated,hid,hel⟩ := hstep.mem_createdCoins.mp hmem
      obtain ⟨hge,hassigned,hleaf,hproof⟩ := hstep.created_reported hinj hshort hd hcreated
      rw [hel] at hge hassigned hleaf hproof
      rw [V2SiacoinInput.confirmAt_new _ _ hunassigned hassigned] at he ⊢
      have hsame : e = confirm au.createdCoins sci.parent.id sci.parent.stateElement := by
        rw [Updated,if_neg hassigned] at he
        exact Except.ok.inj (he.2.symm.trans (hstep.forward_new hassigned hge))
      have hcoin := hstep.created_iff_coin.mp ⟨d,hd,hcreated,rfl⟩
      have hmember : sci.parent.id ∈ b.createdIDs c := by
        rw [← Block.map_id_coins c b,← hid]
        exact List.mem_map_of_mem hcoin
      have hspent := spent_since hstep hmember
      rw [hstep.spent_reported hd,hid,← decide_eq_decide.mpr hspent] at hleaf
      have hheight : ch'.state.index.height = UInt64.ofNat ((pre ++ done).length + 1) := by
        rw [hstep.after.height,List.length_append,List.length_singleton]
      rw [hheight,hsame]
      exact .promoted hunassigned rfl hcoin hid hassigned hleaf hproof
  | @promoted e₀ l r b₀ k hunassigned hdone hcreated hid hassigned hleaf hproof =>
    have hsame : ({ sci₀ with parent.stateElement := e₀, parent.maturityHeight := UInt64.ofNat ((pre ++ l).length + 1) } :
        V2SiacoinInput).confirmAt au.createdCoins ch'.state.index.height = _ := V2SiacoinInput.confirmAt_assigned _ _ hassigned
    rw [hsame] at he ⊢
    rw [← hid] at hleaf
    obtain ⟨hindex,hleaf',hproof'⟩ := leaf_forward hstep hshort hassigned hleaf he
    rw [hid] at hleaf'
    refine .promoted hunassigned (r := r ++ [b]) (by rw [hdone]; simp) hcreated hid ?_ hleaf' fun hempty => hproof' (hproof hempty)
    exact fun heq => hassigned (hindex.symm.trans heq)

end Step

end Inputs

section Paths

variable (hset : Setting cfg.crypto m S log) (hbodies : ∀ id, ¬ st.Pruned id) (hordered : ∀ b ∈ taken log, Ordered cfg b)
  (hP : Branch cfg.crypto m log pre chP)
include hset hbodies hordered hP

variable {I : List Block → Chain → List V2Transaction → Prop}

/-- The passes over the reverted blocks of a path, each with the blocks that are reverted already. -/
theorem revert_passes (hO : Branch cfg.crypto m log (pre ++ old) chO) (hheld : st.Held cfg.crypto m (pre ++ old))
    (hdown : Down st.parentIndex chO.state.index l chP.state.index) (hlen : l.length = old.length)
    (hstep : ∀ keep b gone ch ch' i txns, old = keep ++ b :: gone → PathBlock cfg m log st (pre ++ keep) ch b ch' i → I gone ch' txns →
      Returns (Manager.revertSet cfg st txns i) ∧ ∀ out, Manager.revertSet cfg st txns i = .ok out → I (b :: gone) ch out)
    (hinit : I [] chO txns) : Returns (l.foldlM (Manager.revertSet cfg st) txns) ∧
      ∀ out, l.foldlM (Manager.revertSet cfg st) txns = .ok out → I old chP out := by
  -- after the indices `p`, the chain ends where as many blocks are left
  let P : List ChainIndex → List V2Transaction → Prop := fun p txns =>
    ∃ keep gone ch, old = keep ++ gone ∧ gone.length = p.length ∧ Branch cfg.crypto m log (pre ++ keep) ch ∧ I gone ch txns
  have hpass : ∀ p i q txns, l = p ++ i :: q → P p txns → Returns (Manager.revertSet cfg st txns i) ∧
      ∀ out, Manager.revertSet cfg st txns i = .ok out → P (p ++ [i]) out := by
    rintro p i q txns hsplit ⟨keep',gone,ch',hold,hcount,hch',hinv⟩
    obtain ⟨keep,b,gone',ch,ch₂,hold',hcount',hblock⟩ := hP.pathBlocks hset hO hheld hbodies hordered hdown hlen hsplit
    obtain ⟨rfl,rfl⟩ : keep' = keep ++ [b] ∧ gone = gone' := by
      refine List.append_inj' ?_ (by omega)
      rw [← hold,hold',List.append_assoc]
      rfl
    rw [← List.append_assoc] at hch'
    obtain rfl := hch'.functional hblock.after
    obtain ⟨hreturns,hkeeps⟩ := hstep keep b gone ch _ i txns hold' hblock hinv
    refine ⟨hreturns,fun out hout => ⟨keep,b :: gone,ch,hold',?_,hblock.before,hkeeps out hout⟩⟩
    rw [List.length_cons,List.length_append,List.length_singleton,hcount]
  have hstart : P [] txns := ⟨old,[],chO,by simp,rfl,hO,hinit⟩
  refine ⟨returns_foldlM hpass hstart,fun out hrun => ?_⟩
  obtain ⟨keep,gone,ch,hold,hcount,hch,hinv⟩ :=
    foldlM_keeps (P := P) (fun p i q txns out hsplit hp hout => (hpass p i q txns hsplit hp).2 out hout) hrun hstart
  obtain rfl : keep = [] := by
    have hlength := congrArg List.length hold
    rw [List.length_append] at hlength
    exact List.eq_nil_of_length_eq_zero (by omega)
  rw [List.append_nil] at hch
  obtain rfl := hch.functional hP
  rw [List.nil_append] at hold
  rwa [hold]

/-- The passes over the applied blocks of a path, each with the blocks that are applied already. -/
theorem apply_passes (hN : Branch cfg.crypto m log (pre ++ new) chN) (hheld : st.Held cfg.crypto m (pre ++ new))
    (hdown : Down st.parentIndex chN.state.index l chP.state.index) (hlen : l.length = new.length) {safe : Prop}
    (hstep : ∀ done b left ch ch' i txns, new = done ++ b :: left → PathBlock cfg m log st (pre ++ done) ch b ch' i → I done ch txns →
      (safe → Returns (Manager.applySet cfg st txns i)) ∧
      ∀ out, Manager.applySet cfg st txns i = .ok out → I (done ++ [b]) ch' out)
    (hinit : I [] chP txns) : (safe → Returns (l.reverse.foldlM (Manager.applySet cfg st) txns)) ∧
      ∀ out, l.reverse.foldlM (Manager.applySet cfg st) txns = .ok out → I new chN out := by
  let P : List ChainIndex → List V2Transaction → Prop := fun p txns =>
    ∃ done left ch, new = done ++ left ∧ done.length = p.length ∧ Branch cfg.crypto m log (pre ++ done) ch ∧ I done ch txns
  have hpass : ∀ p i q txns, l.reverse = p ++ i :: q → P p txns → (safe → Returns (Manager.applySet cfg st txns i)) ∧
      ∀ out, Manager.applySet cfg st txns i = .ok out → P (p ++ [i]) out := by
    rintro p i q txns hsplit ⟨done',left,ch',hnew,hcount,hch',hinv⟩
    have hsplit' : l = q.reverse ++ i :: p.reverse := by
      rw [← List.reverse_reverse l,hsplit]
      simp
    obtain ⟨done,b,left',ch,ch₂,hnew',hcount',hblock⟩ := hP.pathBlocks hset hN hheld hbodies hordered hdown hlen hsplit'
    have hlengths := congrArg List.length hsplit'
    have hlengths' := congrArg List.length hnew'
    simp only [List.length_append,List.length_reverse,List.length_cons] at hlengths hlengths' hcount'
    obtain ⟨rfl,-⟩ : done' = done ∧ left = b :: left' := List.append_inj (hnew.symm.trans hnew') (by omega)
    obtain rfl := hch'.functional hblock.before
    obtain ⟨hreturns,hkeeps⟩ := hstep done' b left' _ ch₂ i txns hnew' hblock hinv
    refine ⟨hreturns,fun out hout => ⟨done' ++ [b],left',ch₂,by rw [hnew',List.append_assoc]; rfl,?_,?_,hkeeps out hout⟩⟩
    · rw [List.length_append,List.length_append,hcount]
      rfl
    · rw [← List.append_assoc]
      exact hblock.after
  have hstart : P [] txns := ⟨[],new,chP,rfl,rfl,by rwa [List.append_nil],hinit⟩
  refine ⟨fun hsafe => returns_foldlM (fun p i q txns hsplit hp =>
    ⟨(hpass p i q txns hsplit hp).1 hsafe,(hpass p i q txns hsplit hp).2⟩) hstart,fun out hrun => ?_⟩
  obtain ⟨done,left,ch,hnew,hcount,hch,hinv⟩ :=
    foldlM_keeps (P := P) (fun p i q txns out hsplit hp hout => (hpass p i q txns hsplit hp).2 out hout) hrun hstart
  obtain rfl : left = [] := by
    have hlength := congrArg List.length hnew
    rw [List.length_append] at hlength
    rw [List.length_reverse] at hcount
    exact List.eq_nil_of_length_eq_zero (by omega)
  rw [List.append_nil] at hnew
  subst hnew
  obtain rfl := hch.functional hN
  exact hinv

end Paths

section Fork

/-- Two branches part behind their common beginning. -/
def Apart (old new : List Block) : Prop := ∀ b ∈ old.head?, b ∉ new.head?

theorem prefix_of_apart {p : List Block} (hapart : Apart old new) (hold : p <+: pre ++ old) (hnew : p <+: pre ++ new) : p <+: pre := by
  rcases Nat.lt_or_ge pre.length p.length with hlt | hle
  · -- the block after the beginning would be the same
    have hO := hold.getElem hlt
    have hN := hnew.getElem hlt
    rw [List.getElem_append_right le_rfl] at hO hN
    have hhead : ∀ {l : List Block} (hl : pre.length - pre.length < l.length), l[pre.length - pre.length] ∈ l.head? := by
      intro l hl
      cases l with
      | nil => simp at hl
      | cons b l => simp
    have hltO : pre.length - pre.length < old.length := by
      have hle := hold.length_le
      rw [List.length_append] at hle
      omega
    have hltN : pre.length - pre.length < new.length := by
      have hle := hnew.length_le
      rw [List.length_append] at hle
      omega
    exact absurd (hO ▸ hN ▸ hhead hltN) (hapart _ (hO ▸ hhead hltO))
  · exact List.prefix_of_prefix_length_le hold (List.prefix_append pre old) hle

/-- The path between the ends of two branches. -/
theorem meets_of_apart (hset : Setting cfg.crypto m S log) (htree : st.HeaderTree (m.genesis.id cfg.crypto))
    (hP : Branch cfg.crypto m log pre chP) (hO : Branch cfg.crypto m log (pre ++ old) chO) (hN : Branch cfg.crypto m log (pre ++ new) chN)
    (hheldO : st.Held cfg.crypto m (pre ++ old)) (hheldN : st.Held cfg.crypto m (pre ++ new)) (hapart : Apart old new) :
    ∃ l l', Meets st (m.genesis.id cfg.crypto) chO.state.index chN.state.index l l' chP.state.index ∧
      l.length = old.length ∧ l'.length = new.length := by
  obtain ⟨l,hl,hlen⟩ := hP.down hset hO hheldO
  obtain ⟨l',hl',hlen'⟩ := hP.down hset hN hheldN
  refine ⟨l,l',⟨hl,hl',hP.member hset (hheldO.of_prefix (List.prefix_append _ _)),fun y k k' hy hk hk' => ?_⟩,hlen,hlen'⟩
  obtain ⟨p,q,chy,hp,-,hchy,rfl⟩ := hO.of_down hset htree hheldO hk hy
  obtain ⟨p',q',chy',hp',-,hchy',hindex⟩ := hN.of_down hset htree hheldN hk' hy
  obtain ⟨rfl,-⟩ := hchy.unique hset hchy' (congrArg ChainIndex.id hindex.symm)
  obtain ⟨rest,rfl⟩ := prefix_of_apart hapart ⟨q,hp.symm⟩ ⟨q',hp'.symm⟩
  obtain ⟨n,hn,-⟩ := hchy.down hset hP (hheldO.of_prefix (List.prefix_append _ _))
  exact ⟨n,hn⟩

end Fork

section Basis

variable {acc : ElementAccumulator}

def SiafundElement.leafPreimage (e : SiafundElement) : Bytes :=
  Crypto.distinguisher "leaf/siafund" ++ e.id.val ++ e.siafundOutput.encodeV2 ++ e.claimStart.encodeV2

def V2Transaction.elementMessages (c : Crypto) (txn : V2Transaction) : List Bytes :=
  ((transactionPlaces c).get txn).flatMap (fun p => proofMessages c ⟨0, p.2, p.1, false⟩) ++
    (txn.siacoinInputs.map (fun sci => sci.parent.leafPreimage) ++ txn.siafundInputs.map fun sfi => sfi.parent.leafPreimage)

/-- The strings hashed to check a set against a chain. -/
def checkMessages (c : Crypto) (ch : Chain) (txns : List V2Transaction) : List Bytes :=
  forestMessages c (ch.leaves.map (StoredLeaf.record c)) ++ txns.flatMap (V2Transaction.elementMessages c)

theorem StoredElement.preimage_ne_siafund (x : StoredElement) (e : SiafundElement) : x.preimage ≠ e.leafPreimage := by
  intro heq
  have hhead := congrArg (List.take 13) heq
  cases x with
  | coin k =>
    simp only [preimage,SiacoinElement.leafPreimage,SiafundElement.leafPreimage,List.append_assoc] at hhead
    rw [List.take_append_of_le_length (by decide),List.take_append_of_le_length (by decide)] at hhead
    exact absurd hhead (by decide)
  | index ci =>
    simp only [preimage,ChainIndexElement.leafPreimage,SiafundElement.leafPreimage,List.append_assoc] at hhead
    rw [List.take_append_of_le_length (by decide),List.take_append_of_le_length (by decide)] at hhead
    exact absurd hhead (by decide)

theorem contains_of_validated (h : Manager.validateTransactionElements cfg acc txn = .ok ()) {p : Hash256 × StateElement}
    (hp : p ∈ (transactionPlaces cfg.crypto).get txn) (hassigned : p.2.leafIndex ≠ unassignedLeafIndex) :
    acc.containsLeaf cfg.crypto ⟨0, p.2, p.1, false⟩ = true := by
  rw [Manager.validateTransactionElements,rejectIf_eq_ok] at h
  obtain ⟨n,hn⟩ := List.mem_iff_getElem?.mp hp
  by_contra hnot
  refine h ⟨⟨n,p.2,p.1,false⟩,List.mem_filter.mpr ⟨?_,decide_eq_true hassigned⟩,Bool.not_eq_true _ ▸ hnot⟩
  refine List.mem_of_getElem? (i := n) ?_
  have hget : (elementPlaces cfg.crypto).get [txn] = (transactionPlaces cfg.crypto).get txn := List.flatMap_singleton _ _
  rw [hget,List.getElem?_mapIdx,hn]
  rfl

variable (hinj : Set.InjOn c.sum256 S) (hvalid : Chain.Valid c m S bl ch)
  (hforest : ∀ x ∈ forestMessages c (ch.leaves.map (StoredLeaf.record c)), x ∈ S)
include hinj hvalid hforest

theorem proved_of_validated (hmessages : ∀ txn ∈ txns, ∀ x ∈ txn.elementMessages c, x ∈ S)
    (h : ∀ txn ∈ txns, ∀ p ∈ (transactionPlaces c).get txn, p.2.leafIndex ≠ unassignedLeafIndex →
      ch.state.elements.containsLeaf c ⟨0, p.2, p.1, false⟩ = true) : Proved c ch txns := by
  intro txn htxn e he hassigned
  obtain ⟨p,hp,rfl⟩ := List.mem_map.mp he
  refine (mem_of_containsLeaf hvalid.represents hinj hforest (fun x hx => ?_) (h txn htxn p hp hassigned)).2
  exact hmessages txn htxn x (List.mem_append_left _ (List.mem_flatMap.mpr ⟨p,hp,hx⟩))

/-- The siacoin inputs with a position are stored unspent, and no siafund input has a position. -/
theorem inputs_of_validated (hmessages : ∀ x ∈ txn.elementMessages c, x ∈ S)
    (h : ∀ p ∈ (transactionPlaces c).get txn, p.2.leafIndex ≠ unassignedLeafIndex →
      ch.state.elements.containsLeaf c ⟨0, p.2, p.1, false⟩ = true) :
    (∀ sci ∈ txn.siacoinInputs, sci.parent.stateElement.leafIndex ≠ unassignedLeafIndex → InputProved c ch false sci) ∧
      ∀ sfi ∈ txn.siafundInputs, sfi.parent.stateElement.leafIndex = unassignedLeafIndex := by
  have hproofs : ∀ p ∈ (transactionPlaces c).get txn, ∀ x ∈ proofMessages c ⟨0,p.2,p.1,false⟩, x ∈ S := fun p hp x hx =>
    hmessages x (List.mem_append_left _ (List.mem_flatMap.mpr ⟨p,hp,hx⟩))
  constructor
  · intro sci hsci hassigned
    have hp : ((siacoinLeaf c 0 sci.parent false).elementHash, sci.parent.stateElement) ∈ (transactionPlaces c).get txn :=
      List.mem_append_left _ (List.mem_flatMap.mpr ⟨sci,hsci,List.mem_singleton.mpr rfl⟩)
    refine inputProved_of_contains hinj hvalid hforest ?_ hassigned (h _ hp hassigned)
    rw [V2SiacoinInput.messages,List.forall_mem_cons]
    exact ⟨hmessages _ (List.mem_append_right _ (List.mem_append_left _ (List.mem_map_of_mem hsci))),hproofs _ hp⟩
  · intro sfi hsfi
    by_contra hassigned
    have hp : ((siafundLeaf c 0 sfi.parent false).elementHash, sfi.parent.stateElement) ∈ (transactionPlaces c).get txn :=
      List.mem_append_right _ (List.mem_append_left _ (List.mem_flatMap.mpr ⟨sfi,hsfi,List.mem_singleton.mpr rfl⟩))
    obtain ⟨hrecord,-⟩ := mem_of_containsLeaf hvalid.represents hinj hforest (hproofs _ hp) (h _ hp hassigned)
    rw [List.getElem?_map,Option.map_eq_some_iff] at hrecord
    obtain ⟨l,hl,hrecord⟩ := hrecord
    refine StoredElement.preimage_ne_siafund l.element sfi.parent (hinj (hvalid.leaves.known l (List.mem_of_getElem? hl)) ?_
      (congrArg LeafRecord.elementHash hrecord))
    exact hmessages _ (List.mem_append_right _ (List.mem_append_right _ (List.mem_map_of_mem hsfi)))

end Basis

section Carried

variable {txns₀ : List V2Transaction} {l : List α} {l' : List β}

theorem forall₂_trans {γ : Type} {Q : β → γ → Prop} {T : α → γ → Prop} {l'' : List γ}
    (h : ∀ x y z, R x y → Q y z → T x z) (hR : List.Forall₂ R l l') (hQ : List.Forall₂ Q l' l'') : List.Forall₂ T l l'' := by
  induction hR generalizing l'' with
  | nil =>
    cases hQ
    exact .nil
  | cons hx _ ih =>
    cases hQ with
    | cons hy hrest => exact .cons (h _ _ _ hx hy) (ih hrest)

theorem exists_of_forall₂ (h : List.Forall₂ R l l') {x : α} (hx : x ∈ l) :
    ∃ y ∈ l', R x y := by
  induction h with
  | nil => cases hx
  | cons hxy _ ih =>
    rcases List.mem_cons.mp hx with rfl | hx
    · exact ⟨_,List.mem_cons_self,hxy⟩
    · obtain ⟨y,hy,hR⟩ := ih hx
      exact ⟨y,List.mem_cons_of_mem _ hy,hR⟩

/-- A transaction of a set, once the blocks `done` have been applied after `pre`. -/
structure TxnCarried (c : Crypto) (m : QdayManifest) (pre done : List Block) (ch : Chain) (txn txn' : V2Transaction) : Prop where
  id : txn'.id c = txn.id c
  coins : List.Forall₂ (InputCarried c m pre done ch) txn.siacoinInputs txn'.siacoinInputs
  funds : List.Forall₂ (fun sfi sfi' => sfi.parent.stateElement.leafIndex = unassignedLeafIndex ∧
    ((∀ b ∈ done, sfi.parent.id ∉ b.createdIDs c) → sfi' = sfi)) txn.siafundInputs txn'.siafundInputs

theorem carried_of_validated (hinputs : ∀ txn ∈ txns,
    (∀ sci ∈ txn.siacoinInputs, sci.parent.stateElement.leafIndex ≠ unassignedLeafIndex → InputProved c ch false sci) ∧
      ∀ sfi ∈ txn.siafundInputs, sfi.parent.stateElement.leafIndex = unassignedLeafIndex) :
    List.Forall₂ (TxnCarried c m pre [] ch) txns txns := by
  refine List.forall₂_same.mpr fun txn htxn => ⟨rfl,List.forall₂_same.mpr fun sci hsci => ?_,List.forall₂_same.mpr fun sfi hsfi => ?_⟩
  · by_cases hunassigned : sci.parent.stateElement.leafIndex = unassignedLeafIndex
    · exact .waiting hunassigned fun b hb => by cases hb
    · exact .kept (e := sci.parent.stateElement) hunassigned rfl ((hinputs txn htxn).1 sci hsci hunassigned)
  · exact ⟨(hinputs txn htxn).2 sfi hsfi,fun _ => rfl⟩

section Blocks

variable (hset : Setting cfg.crypto m S log) (hroom : ∀ bl ch, Branch cfg.crypto m log bl ch → ch.leaves.length ≤ 2^63)
include hset hroom

theorem revertSet_carried (h : PathBlock cfg m log st bl ch b ch' i) (hcarried : List.Forall₂ (TxnCarried cfg.crypto m pre [] ch') txns₀ txns)
    (hrun : Manager.revertSet cfg st txns i = .ok out) : List.Forall₂ (TxnCarried cfg.crypto m pre [] ch) txns₀ out ∧
      ∀ txn ∈ txns₀, ∀ sci ∈ txn.siacoinInputs, sci.parent.stateElement.leafIndex ≠ unassignedLeafIndex →
        sci.parent.id ∉ b.createdIDs cfg.crypto := by
  obtain ⟨au,ms,ou,ru,-,hstep,hru⟩ := h.steps hset hroom default
  rw [Manager.revertSet,h.found,ok_bind] at hrun
  change (revertBlock cfg.crypto ch.state b {} >>= _) = _ at hrun
  rw [hru,ok_bind] at hrun
  have hupdated := updateSetProofs_updated (fun _ _ => RevertUpdate.updateElementProof_leafIndex) hrun
  have hpair : List.Forall₂ (fun txn txn' => TxnCarried cfg.crypto m pre [] ch txn txn' ∧ ∀ sci ∈ txn.siacoinInputs,
      sci.parent.stateElement.leafIndex ≠ unassignedLeafIndex → sci.parent.id ∉ b.createdIDs cfg.crypto) txns₀ out := by
    refine forall₂_trans (fun txn₀ txn txn' hcar hup => ⟨⟨hup.id.trans hcar.id,?_,?_⟩,fun sci hsci hassigned => ?_⟩) hcarried hupdated
    · refine forall₂_trans ?_ hcar.coins hup.coins
      rintro sci₀ sci _ hsci ⟨e,he,rfl⟩
      exact (hsci.back hset.ideal.inj hstep hru he).1
    · refine forall₂_trans ?_ hcar.funds hup.funds
      rintro sfi₀ sfi _ ⟨hunassigned,hsame⟩ ⟨e,he,rfl⟩
      refine ⟨hunassigned,fun hno => ?_⟩
      obtain rfl := hsame hno
      rw [Updated,if_pos hunassigned] at he
      rw [he]
      rfl
    · obtain ⟨sci₁,hsci₁,hcarried₁⟩ := exists_of_forall₂ hcar.coins hsci
      obtain ⟨-,-,e,he,-⟩ := exists_of_forall₂ hup.coins hsci₁
      exact (hcarried₁.back hset.ideal.inj hstep hru he).2 hassigned
  refine ⟨hpair.imp fun _ _ => And.left,fun txn htxn => ?_⟩
  obtain ⟨-,-,-,hnot⟩ := exists_of_forall₂ hpair htxn
  exact hnot

def unconfirmed (c : Crypto) (blocks : List Block) (txns : List V2Transaction) : List V2Transaction :=
  txns.filter fun txn => ∀ b ∈ blocks, txn.id c ∉ b.v2Transactions.map (V2Transaction.id c)

theorem applySet_carried (h : PathBlock cfg m log st (pre ++ done) ch b ch' i)
    (hcarried : List.Forall₂ (TxnCarried cfg.crypto m pre done ch) (unconfirmed cfg.crypto done txns₀) txns)
    (hrun : Manager.applySet cfg st txns i = .ok out) :
    List.Forall₂ (TxnCarried cfg.crypto m pre (done ++ [b]) ch') (unconfirmed cfg.crypto (done ++ [b]) txns₀) out := by
  obtain ⟨au,ms,ou,-,happly,hstep,-⟩ := h.steps hset hroom ((st.ancestorTimestamp b.parentID).getD default)
  obtain ⟨b',bs,cs,cs',au',hfound,happly',hrun⟩ := applySet_eq_ok.mp hrun
  obtain ⟨rfl,rfl,rfl⟩ : b' = b ∧ bs = {} ∧ cs = ch.state := by
    have hsame := Except.ok.inj (hfound.symm.trans h.found)
    simpa using hsame
  obtain ⟨rfl,rfl⟩ : cs' = ch'.state ∧ au' = au := by
    have hsame := Except.ok.inj (happly'.symm.trans happly)
    simpa using hsame
  have hupdated := updateSetProofs_updated (fun _ _ => ApplyUpdate.updateElementProof_leafIndex) hrun
  rw [List.forall₂_map_left_iff] at hupdated
  have hfilter : unconfirmed cfg.crypto (done ++ [b']) txns₀ = (unconfirmed cfg.crypto done txns₀).filter fun txn =>
      txn.id cfg.crypto ∉ b'.v2Transactions.map (V2Transaction.id cfg.crypto) := by
    rw [unconfirmed,unconfirmed,List.filter_filter]
    refine List.filter_congr fun txn _ => ?_
    rw [Bool.eq_iff_iff]
    simp only [decide_eq_true_iff,Bool.and_eq_true,List.forall_mem_append,List.forall_mem_singleton]
    exact and_comm
  have hremaining := List.rel_filter (R := TxnCarried cfg.crypto m pre done ch)
    (p := fun txn => txn.id cfg.crypto ∉ b'.v2Transactions.map (V2Transaction.id cfg.crypto))
    (q := fun txn => txn.id cfg.crypto ∉ b'.v2Transactions.map (V2Transaction.id cfg.crypto))
    (fun txn₀ txn hcar => by simp only [hcar.id]) hcarried
  rw [hfilter]
  refine forall₂_trans (fun txn₀ txn txn' hcar hup => ⟨?_,?_,?_⟩) hremaining hupdated
  · have hid : (txn.confirmInputs au'.createdCoins ch'.state.index.height).id cfg.crypto = txn.id cfg.crypto :=
      V2Transaction.id_confirmInputs _ _ _
    exact hup.id.trans (hid.trans hcar.id)
  · have hcoins := hup.coins
    rw [V2Transaction.confirmInputs,List.forall₂_map_left_iff] at hcoins
    refine forall₂_trans ?_ hcar.coins hcoins
    rintro sci₀ sci _ hsci ⟨e,he,rfl⟩
    exact hsci.step hset.ideal.inj hstep (hroom _ _ h.after) he
  · have hfunds := hup.funds
    rw [V2Transaction.confirmInputs,List.forall₂_map_left_iff] at hfunds
    refine forall₂_trans ?_ hcar.funds hfunds
    rintro sfi₀ sfi _ ⟨hunassigned,hsame⟩ ⟨e,he,rfl⟩
    refine ⟨hunassigned,fun hno => ?_⟩
    rw [List.forall_mem_append,List.forall_mem_singleton] at hno
    obtain rfl := hsame hno.1
    have hstay : confirm au'.createdCoins sfi.parent.id sfi.parent.stateElement = sfi.parent.stateElement := by
      rcases confirm_cases au'.createdCoins sfi.parent.id sfi.parent.stateElement with ⟨hstay,-⟩ | ⟨-,hmem⟩
      · exact hstay
      · obtain ⟨d,hd,hcreated,hid,-⟩ := hstep.mem_createdCoins.mp hmem
        refine absurd ?_ hno.2
        rw [← Block.map_id_coins cfg.crypto b',← hid]
        exact List.mem_map_of_mem (hstep.created_iff_coin.mp ⟨d,hd,hcreated,rfl⟩)
    simp only [hstay] at he ⊢
    rw [Updated,if_pos hunassigned] at he
    rw [he]
    rfl

end Blocks

end Carried

section Update

theorem map_id_createdCoins (c : Crypto) (m : QdayManifest) (bl : List Block) :
    (createdCoins c m bl).map Coin.id = (m.premineCoin c).id :: bl.flatMap (Block.createdIDs c) := by
  induction bl using List.reverseRecOn with
  | nil => rfl
  | append_singleton bl b ih => rw [createdCoins_snoc,List.map_append,ih,Block.map_id_coins,List.flatMap_append]; simp

theorem creating_unique (hvalid : Chain.Valid c m S (pre ++ new) chN) {id : SiacoinOutputID} {l r l' r' : List Block} {b' : Block}
    (h : new = l ++ b :: r) (h' : new = l' ++ b' :: r') (hid : id ∈ b.createdIDs c) (hid' : id ∈ b'.createdIDs c) : l = l' := by
  have hnodup := hvalid.ledger.created_nodup
  rw [map_id_createdCoins,List.nodup_cons] at hnodup
  -- a second creating block would lie behind the first
  have hbehind : ∀ {l r l' r' : List Block} {b b' : Block}, new = l ++ b :: r → new = l' ++ b' :: r' → id ∈ b.createdIDs c →
      id ∈ b'.createdIDs c → ¬ l.length < l'.length := by
    intro l r l' r' b b' h h' hid hid' hlt
    have hat : (l ++ b :: r)[l'.length]? = some b' := by
      rw [← h,h',List.getElem?_append_right le_rfl,Nat.sub_self]
      rfl
    rw [List.getElem?_append_right hlt.le,List.getElem?_cons,if_neg (by omega)] at hat
    have hdup := hnodup.2
    rw [h,List.flatMap_append,List.flatMap_append,List.flatMap_cons] at hdup
    have hdisjoint := (List.nodup_append.mp (List.nodup_append.mp (List.nodup_append.mp hdup).2.1).2.1).2.2
    exact hdisjoint id hid id (List.mem_flatMap.mpr ⟨b',List.mem_of_getElem? hat,hid'⟩) rfl
  have hlength : l.length = l'.length :=
    Nat.le_antisymm (Nat.le_of_not_lt (hbehind h' h hid' hid)) (Nat.le_of_not_lt (hbehind h h' hid hid'))
  exact (List.append_inj (h.symm.trans h') hlength).1

/-- What becomes of an input of a set that is updated from one block to another, over the blocks `new` behind
`pre`. -/
structure InputUpdated (c : Crypto) (m : QdayManifest) (pre new : List Block) (source : ChainIndex) (target : State)
    (sci sci' : V2SiacoinInput) : Prop where
  same : sci'.parent.id = sci.parent.id ∧ sci'.parent.siacoinOutput = sci.parent.siacoinOutput ∧ sci'.satisfiedPolicy = sci.satisfiedPolicy
  kept : sci.parent.stateElement.leafIndex ≠ unassignedLeafIndex →
    sci'.parent.stateElement.leafIndex = sci.parent.stateElement.leafIndex ∧ sci'.parent.maturityHeight = sci.parent.maturityHeight ∧
    target.elements.containsLeaf c (siacoinLeaf c 0 sci'.parent
      (decide (sci.parent.id ∈ inputIDs (new.flatMap Block.v2Transactions)))) = true
  promoted : sci.parent.stateElement.leafIndex = unassignedLeafIndex → ∀ l b r, new = l ++ b :: r → sci.parent.id ∈ b.createdIDs c →
    sci'.parent.stateElement.leafIndex ≠ unassignedLeafIndex ∧
    sci'.parent.maturityHeight = UInt64.ofNat ((pre ++ l).length + 1) ∧
    (EphemeralProofsEmpty b → sci'.parent.coin ∈ b.coins c (UInt64.ofNat ((pre ++ l).length + 1)) m.network.maturityDelay →
      target.elements.containsLeaf c (siacoinLeaf c 0 sci'.parent
        (decide (sci.parent.id ∈ inputIDs (new.flatMap Block.v2Transactions)))) = true)
  waiting : sci.parent.stateElement.leafIndex = unassignedLeafIndex → (∀ b ∈ new, sci.parent.id ∉ b.createdIDs c) →
    sci' = if source = target.index then sci else { sci with parent.maturityHeight := target.index.height + 1 }

/-- The transaction after the update; no siafund input has ever been in the accumulator. -/
structure TxnResult (c : Crypto) (m : QdayManifest) (pre new : List Block) (source : ChainIndex) (target : State)
    (txn txn' : V2Transaction) : Prop where
  id : txn'.id c = txn.id c
  coins : List.Forall₂ (InputUpdated c m pre new source target) txn.siacoinInputs txn'.siacoinInputs
  funds : List.Forall₂ (fun sfi sfi' => sfi.parent.stateElement.leafIndex = unassignedLeafIndex ∧
    ((∀ b ∈ new, sfi.parent.id ∉ b.createdIDs c) → sfi' = sfi)) txn.siafundInputs txn'.siafundInputs

theorem InputCarried.result (hvalid : Chain.Valid c m S (pre ++ new) chN) {source : ChainIndex}
    (h : InputCarried c m pre new chN sci sci') : InputUpdated c m pre new source chN.state sci
      (if source = chN.state.index then sci' else sci'.bornAt (chN.state.index.height + 1)) := by
  have hassigned : ∀ {sci' : V2SiacoinInput}, sci'.parent.stateElement.leafIndex ≠ unassignedLeafIndex →
      (if source = chN.state.index then sci' else sci'.bornAt (chN.state.index.height + 1)) = sci' := by
    intro sci' h
    split_ifs
    · rfl
    · exact if_neg h
  cases h with
  | @kept e hpositioned hindex hproved =>
    rw [hassigned hproved.assigned]
    refine ⟨⟨rfl,rfl,rfl⟩,fun _ => ⟨hindex,rfl,hproved.contains hvalid⟩,fun hunassigned => ?_,fun hunassigned => ?_⟩
    · exact absurd hunassigned hpositioned
    · exact absurd hunassigned hpositioned
  | waiting hunassigned hno =>
    refine ⟨?_,fun hpositioned => absurd hunassigned hpositioned,fun _ l b r hnew hid => ?_,fun _ _ => ?_⟩
    · split_ifs
      · exact ⟨rfl,rfl,rfl⟩
      · rw [V2SiacoinInput.bornAt,if_pos hunassigned]
        exact ⟨rfl,rfl,rfl⟩
    · exact absurd hid (hno b (by simp [hnew]))
    · rw [V2SiacoinInput.bornAt,if_pos hunassigned]
  | @promoted e l r b k hunassigned hnew hcreated hid hpositioned hleaf hproof =>
    rw [hassigned hpositioned]
    have hmem : sci.parent.id ∈ b.createdIDs c := by
      rw [← Block.map_id_coins c b,← hid]
      exact List.mem_map_of_mem hcreated
    refine ⟨⟨rfl,rfl,rfl⟩,fun hassigned => absurd hunassigned hassigned,fun _ l' b' r' hnew' hid' => ?_,fun _ hno => ?_⟩
    · obtain rfl := creating_unique hvalid hnew hnew' hmem hid'
      obtain ⟨rfl,-⟩ := List.cons_eq_cons.mp (List.append_cancel_left (hnew.symm.trans hnew'))
      refine ⟨hpositioned,rfl,fun hempty hpresented => ?_⟩
      -- outputs of one block with one ID are the same
      have hnodup := hvalid.ledger.created_nodup
      rw [map_id_createdCoins,List.nodup_cons] at hnodup
      have hids := (List.nodup_flatMap.mp hnodup.2).1 b (by simp [hnew])
      rw [← Block.map_id_coins c b] at hids
      have hsame := List.inj_on_of_nodup_map hids hcreated hpresented hid
      rw [hsame] at hleaf
      exact InputProved.contains hvalid ⟨hpositioned,hleaf,hproof hempty⟩
    · exact absurd hmem (hno b (by simp [hnew]))

section Phases

variable (hset : Setting cfg.crypto m S log)
  (hbodies : ∀ id, ¬ st.Pruned id) (hordered : ∀ b ∈ taken log, Ordered cfg b)
  (hroom : ∀ bl ch, Branch cfg.crypto m log bl ch → ch.leaves.length ≤ 2^63) (hP : Branch cfg.crypto m log pre chP)
include hset hbodies hordered hroom hP

theorem revert_phase (hO : Branch cfg.crypto m log (pre ++ old) chO) (hheld : st.Held cfg.crypto m (pre ++ old))
    (hdown : Down st.parentIndex chO.state.index l chP.state.index) (hlen : l.length = old.length)
    (hchecks : ∀ x ∈ checkMessages cfg.crypto chO txns, x ∈ S)
    (hchecked : ∀ txn ∈ txns, Manager.validateTransactionElements cfg chO.state.elements txn = .ok ()) :
    Returns (l.foldlM (Manager.revertSet cfg st) txns) ∧ ∀ mid, l.foldlM (Manager.revertSet cfg st) txns = .ok mid →
      (List.Forall₂ (TxnCarried cfg.crypto m pre [] chP) txns mid ∧ ∀ txn ∈ txns, ∀ sci ∈ txn.siacoinInputs,
        sci.parent.stateElement.leafIndex ≠ unassignedLeafIndex → ∀ b ∈ old, sci.parent.id ∉ b.createdIDs cfg.crypto) ∧
      Proved cfg.crypto chP mid := by
  have hvalid := hO.valid hset
  have hforest := fun x hx => hchecks x (List.mem_append_left _ hx)
  have hmessages : ∀ txn ∈ txns, ∀ x ∈ txn.elementMessages cfg.crypto, x ∈ S := fun txn htxn x hx =>
    hchecks x (List.mem_append_right _ (List.mem_flatMap.mpr ⟨txn,htxn,hx⟩))
  have hcontains : ∀ txn ∈ txns, ∀ p ∈ (transactionPlaces cfg.crypto).get txn, p.2.leafIndex ≠ unassignedLeafIndex →
      chO.state.elements.containsLeaf cfg.crypto ⟨0,p.2,p.1,false⟩ = true := fun txn htxn p hp hassigned =>
    contains_of_validated (hchecked txn htxn) hp hassigned
  refine revert_passes hset hbodies hordered hP hO hheld hdown hlen (I := fun gone ch out =>
    (List.Forall₂ (TxnCarried cfg.crypto m pre [] ch) txns out ∧ ∀ txn ∈ txns, ∀ sci ∈ txn.siacoinInputs,
      sci.parent.stateElement.leafIndex ≠ unassignedLeafIndex → ∀ b ∈ gone, sci.parent.id ∉ b.createdIDs cfg.crypto) ∧
    Proved cfg.crypto ch out) ?_ ⟨⟨?_,?_⟩,?_⟩
  · rintro keep b gone ch ch' i out - hblock ⟨⟨hcarried,hnot⟩,hproved⟩
    obtain ⟨hreturns,hkeeps⟩ := hblock.revert_proved hset hroom hproved
    refine ⟨hreturns,fun out' hout => ?_⟩
    obtain ⟨hcarried',hnot'⟩ := revertSet_carried hset hroom hblock hcarried hout
    refine ⟨⟨hcarried',fun txn htxn sci hsci hassigned => ?_⟩,hkeeps out' hout⟩
    exact List.forall_mem_cons.mpr ⟨hnot' txn htxn sci hsci hassigned,hnot txn htxn sci hsci hassigned⟩
  · exact carried_of_validated fun txn htxn => inputs_of_validated hset.ideal.inj hvalid hforest (hmessages txn htxn) (hcontains txn htxn)
  · intro txn _ sci _ _ b hb
    cases hb
  · exact proved_of_validated hset.ideal.inj hvalid hforest hmessages hcontains

theorem apply_phase (hN : Branch cfg.crypto m log (pre ++ new) chN) (hheld : st.Held cfg.crypto m (pre ++ new))
    (hdown : Down st.parentIndex chN.state.index l chP.state.index) (hlen : l.length = new.length) {mid raw : List V2Transaction}
    (hmid : List.Forall₂ (TxnCarried cfg.crypto m pre [] chP) txns mid)
    (hrun : l.reverse.foldlM (Manager.applySet cfg st) mid = .ok raw) :
    List.Forall₂ (TxnCarried cfg.crypto m pre new chN) (unconfirmed cfg.crypto new txns) raw := by
  have hstart : unconfirmed cfg.crypto [] txns = txns := List.filter_eq_self.mpr fun _ _ => by simp
  have hpass : ∀ done b left ch ch' i out, new = done ++ b :: left → PathBlock cfg m log st (pre ++ done) ch b ch' i →
      List.Forall₂ (TxnCarried cfg.crypto m pre done ch) (unconfirmed cfg.crypto done txns) out →
      (False → Returns (Manager.applySet cfg st out i)) ∧ ∀ out', Manager.applySet cfg st out i = .ok out' →
        List.Forall₂ (TxnCarried cfg.crypto m pre (done ++ [b]) ch') (unconfirmed cfg.crypto (done ++ [b]) txns) out' := by
    intro done b left ch ch' i out _ hblock hcarried
    exact ⟨False.elim,fun out' hout => applySet_carried hset hroom hblock hcarried hout⟩
  exact (apply_passes hset hbodies hordered hP hN hheld hdown hlen (I := fun done ch out =>
    List.Forall₂ (TxnCarried cfg.crypto m pre done ch) (unconfirmed cfg.crypto done txns) out) hpass (hstart.symm ▸ hmid)).2 raw hrun

end Phases

/-- `updateV2TransactionProofs` between two blocks that the manager has applied: the blocks `pre` lie below
both, the blocks `old` are reverted and the blocks `new` applied.  What comes back are the transactions that no
applied block confirms, in their order.  An input with a proof has one at the target, with the flag that says
whether the path spends its output.  An input without a proof takes over the element from the block that creates
its output, with the height of that block; the element is proved at the target if no transaction of that block
presented the output with a proof and the input presents the output as it was created.  All other inputs are
as before, up to the birth height.  If a reverted block has created the element of an input, there is an error. -/
theorem updateV2TransactionProofs_exact (hreach : Reachable cfg m (Unpruned cfg) M) (hset : Setting cfg.crypto m S M.ingested)
    (hordered : ∀ b ∈ taken M.ingested, Ordered cfg b)
    (hroom : ∀ bl ch, Branch cfg.crypto m M.ingested bl ch → ch.leaves.length ≤ 2^63)
    (hO : Branch cfg.crypto m M.ingested (pre ++ old) chO) (hheldO : M.store.Held cfg.crypto m (pre ++ old))
    (hN : Branch cfg.crypto m M.ingested (pre ++ new) chN) (hheldN : M.store.Held cfg.crypto m (pre ++ new)) (hapart : Apart old new)
    (hlength : old.length + new.length ≤ 144) (hchecks : ∀ x ∈ checkMessages cfg.crypto chO txns, x ∈ S) :
    (∀ out, Manager.updateV2TransactionProofs cfg M.store txns chO.state.index chN.state.index = .ok out →
      List.Forall₂ (TxnResult cfg.crypto m pre new chO.state.index chN.state) (unconfirmed cfg.crypto new txns) out) ∧
    ((∃ txn ∈ txns, ∃ sci ∈ txn.siacoinInputs, sci.parent.stateElement.leafIndex ≠ unassignedLeafIndex ∧
      ∃ b ∈ old, sci.parent.id ∈ b.createdIDs cfg.crypto) →
      ∃ msg, Manager.updateV2TransactionProofs cfg M.store txns chO.state.index chN.state.index = fail msg) := by
  obtain ⟨bl,ch,hat⟩ := hreach.proper.at_end hset
  obtain ⟨chP,hP⟩ := hO.split
  obtain ⟨l,l',hmeets,hl,hl'⟩ := meets_of_apart hset hat.sound.tree hP hO hN hheldO hheldN hapart
  have hpath : Manager.reorgPath M.store chO.state.index chN.state.index 144 = .ok (l, l'.reverse) :=
    reorgPath_of_meets hat.sound.tree (hO.member hset hheldO) (hN.member hset hheldN) hmeets (by omega)
  have hrun : Manager.updateV2TransactionProofs cfg M.store txns chO.state.index chN.state.index =
      (do
        txns.forM (Manager.validateTransactionElements cfg chO.state.elements)
        let mid ← l.foldlM (Manager.revertSet cfg M.store) txns
        let raw ← l'.reverse.foldlM (Manager.applySet cfg M.store) mid
        return if chO.state.index ≠ chN.state.index then updateQdayEphemeralHeights raw (chN.state.index.height + 1) else raw) := by
    rw [Manager.updateV2TransactionProofs,(hheldO.tip hO.run).state]
    dsimp only
    rw [hpath]
    rfl
  have hrevert : (∀ txn ∈ txns, Manager.validateTransactionElements cfg chO.state.elements txn = .ok ()) → _ := fun hchecked =>
    revert_phase hset hreach.unpruned hordered hroom hP hO hheldO hmeets.left hl hchecks hchecked
  rw [hrun]
  refine ⟨fun out hout => ?_,fun hgone => ?_⟩
  · rw [bind_unit_eq_ok,forM_eq_ok] at hout
    simp only [bind_eq_ok,pure_eq_ok] at hout
    obtain ⟨hchecked,mid,hmid,raw,hraw,rfl⟩ := hout
    obtain ⟨⟨hcarried,-⟩,-⟩ := (hrevert hchecked).2 mid hmid
    have hend := apply_phase hset hreach.unpruned hordered hroom hP hN hheldN hmeets.right hl' hcarried hraw
    have hheights : (if chO.state.index ≠ chN.state.index then updateQdayEphemeralHeights raw (chN.state.index.height + 1) else raw) =
        raw.map fun txn => { txn with siacoinInputs := txn.siacoinInputs.map fun sci =>
          if chO.state.index = chN.state.index then sci else sci.bornAt (chN.state.index.height + 1) } := by
      by_cases hsame : chO.state.index = chN.state.index
      · simp [hsame]
      · simp only [hsame,ne_eq,not_false_eq_true,if_true,if_false]
        rfl
    rw [hheights,List.forall₂_map_right_iff]
    refine hend.imp fun txn txn' hcar => ⟨?_,?_,hcar.funds⟩
    · by_cases hsame : chO.state.index = chN.state.index
      · simpa [hsame] using hcar.id
      · simp only [hsame,if_false]
        exact (V2Transaction.id_bornAt _ txn').trans hcar.id
    · rw [List.forall₂_map_right_iff]
      exact hcar.coins.imp fun _ _ hsci => hsci.result (hN.valid hset)
  · -- a set with such an input does not get over the reverted blocks
    obtain ⟨txn,htxn,sci,hsci,hassigned,b,hb,hid⟩ := hgone
    have hfails : ∀ mid, (∀ txn ∈ txns, Manager.validateTransactionElements cfg chO.state.elements txn = .ok ()) →
        l.foldlM (Manager.revertSet cfg M.store) txns ≠ .ok mid := fun mid hchecked hmid =>
      ((hrevert hchecked).2 mid hmid).1.2 txn htxn sci hsci hassigned b hb hid
    refine eq_fail_of_returns ?_ ?_
    · refine (returns_forM fun txn _ => returns_rejectIf _ _).bind fun _ hchecked => ?_
      rw [forM_eq_ok] at hchecked
      exact (hrevert hchecked).1.bind fun mid hmid => absurd hmid (hfails mid hchecked)
    · intro out hout
      rw [bind_unit_eq_ok,forM_eq_ok,bind_eq_ok] at hout
      obtain ⟨hchecked,mid,hmid,-⟩ := hout
      exact hfails mid hchecked hmid

theorem updateV2TransactionProofs_exact_sample : ∃ S M b M', ∃ ch₀ ch₁ : Chain, ∃ out, sampleAdded = .ok (M, b, M') ∧
    Setting sampleCrypto sampleManifest S M'.ingested ∧ ch₁.state.index = M'.tipState.index ∧
    Manager.updateV2TransactionProofs sampleConfig M'.store [sampleTransfer] ch₀.state.index ch₁.state.index = .ok out ∧
    out.length = 1 ∧ ∃ new, List.Forall₂ (TxnResult sampleCrypto sampleManifest [] new ch₀.state.index ch₁.state)
      (unconfirmed sampleCrypto new [sampleTransfer]) out := by
  obtain ⟨S,M,b,M',ch₀,hadded,-,hset,hroom,hstart,hextra⟩ :=
    @sampleAdded_with (fun ch => checkMessages sampleCrypto ch [sampleTransfer]) (by decide +kernel)
  have hreach := (sampleAdded_reachable hadded).2.2
  obtain ⟨new,ch₁,hat⟩ := hreach.proper.at_end hset
  have hgenesis : Branch sampleCrypto sampleManifest M'.ingested ([] ++ []) ch₀ := Branch.genesis hstart
  have hheld : M'.store.Held sampleCrypto sampleManifest ([] ++ []) := hat.held.of_prefix (List.nil_prefix)
  obtain ⟨⟨N,b',N'⟩,hadded',hcheck⟩ := exists_of_holds (x := sampleAdded)
    (p := fun r => decide (r.2.2.tipState.index.height = 1) &&
      (Manager.updateV2TransactionProofs sampleConfig r.2.2.store [sampleTransfer] ⟨0,sampleManifest.genesis.id sampleCrypto⟩
        r.2.2.tipState.index).holds fun out => decide (out.length = 1))
    (by decide +kernel)
  rw [hadded] at hadded'
  obtain ⟨rfl,rfl,rfl⟩ : M = N ∧ b = b' ∧ M' = N' := by simpa using hadded'
  rw [Bool.and_eq_true,decide_eq_true_eq] at hcheck
  obtain ⟨hheight,hholds⟩ := hcheck
  obtain ⟨out,hrun,hlength⟩ := exists_of_holds hholds
  have hsource : ch₀.state.index = ⟨0,sampleManifest.genesis.id sampleCrypto⟩ := hgenesis.index hset
  have htarget : ch₁.state.index = M'.tipState.index := congrArg State.index hat.tip.symm
  have hcount : new.length = 1 := by
    have hnew := hat.branch.height hset
    rw [htarget,hheight] at hnew
    exact hnew.symm
  rw [← hsource,← htarget] at hrun
  have hall := @updateV2TransactionProofs_exact sampleConfig sampleManifest S M' [] [] new ch₀ ch₁ [sampleTransfer] hreach hset
    (fun _ _ => rfl) hroom hgenesis hheld hat.branch hat.held (fun b hb => by cases hb) (by simp [hcount]) hextra
  exact ⟨S,M,b,M',ch₀,ch₁,out,hadded,hset,htarget,hrun,of_decide_eq_true hlength,new,hall.1 out hrun⟩

def sampleSpoiled (proof : List Hash256) : Outcome (Manager × Block × Manager) := do
  let M ← newManager sampleCrypto sampleManifest
  let b ← sampleBlock proof
  let (_, M') ← exec (Manager.addBlocks sampleConfig [(sampleTime, b)]) M
  return (M, b, M')

theorem sampleSpoiled_reachable {proof : List Hash256} {M' : Manager} (h : sampleSpoiled proof = .ok (M, b, M')) :
    Reachable sampleConfig sampleManifest (Unpruned sampleConfig) M' := by
  simp only [sampleSpoiled,bind_eq_ok,pure_eq_ok,Prod.exists,Prod.mk.injEq] at h
  obtain ⟨M₀,hnew,b₀,-,r,M₁,hrun,rfl,rfl,rfl⟩ := h
  exact Reachable.step (e := .addBlocks [(sampleTime, b₀)]) (Reachable.start hnew) trivial hrun

def sampleRival : V2Transaction := { sampleChild [] with siacoinOutputs := [⟨⟨80, 0⟩, sampleManifest.premine⟩] }

/-- The proof that came with the output inside the block ends up in the proof of another input: the update
succeeds, and the accumulator finds the element neither spent nor unspent. -/
theorem updateV2TransactionProofs_spoiled : ∃ M' txn sci,
    Reachable sampleConfig sampleManifest (Unpruned sampleConfig) M' ∧
    Manager.updateV2TransactionProofs sampleConfig M'.store [sampleRival] ⟨0, sampleManifest.genesis.id sampleCrypto⟩
      M'.tipState.index = .ok [txn] ∧ sci ∈ txn.siacoinInputs ∧ sci.parent.coin = (sampleEphemeral []).coin ∧
    sci.parent.stateElement.leafIndex ≠ unassignedLeafIndex ∧
    ∀ flag, M'.tipState.elements.containsLeaf sampleCrypto (siacoinLeaf sampleCrypto 0 sci.parent flag) = false := by
  obtain ⟨⟨M,b,M'⟩,hrun,hcheck⟩ := exists_of_holds (x := sampleSpoiled [default])
    (p := fun r => (Manager.updateV2TransactionProofs sampleConfig r.2.2.store [sampleRival]
        ⟨0,sampleManifest.genesis.id sampleCrypto⟩ r.2.2.tipState.index).holds fun out =>
      decide (out.length = 1 ∧ ∃ txn ∈ out, ∃ sci ∈ txn.siacoinInputs, sci.parent.coin = (sampleEphemeral []).coin ∧
        sci.parent.stateElement.leafIndex ≠ unassignedLeafIndex ∧
        ∀ flag, r.2.2.tipState.elements.containsLeaf sampleCrypto (siacoinLeaf sampleCrypto 0 sci.parent flag) = false))
    (by decide +kernel)
  obtain ⟨out,hupdate,hout⟩ := exists_of_holds hcheck
  obtain ⟨hlength,txn,htxn,sci,hsci,hcoin,hassigned,hno⟩ := of_decide_eq_true hout
  obtain ⟨txn',rfl⟩ := List.length_eq_one_iff.mp hlength
  obtain rfl := List.mem_singleton.mp htxn
  exact ⟨M',txn,sci,sampleSpoiled_reachable hrun,hupdate,hsci,hcoin,hassigned,hno⟩

end Update

end QdayNode
