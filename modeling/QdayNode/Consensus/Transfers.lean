import QdayNode.Consensus.BlockLeaves

/-!
# What a transfer does to the records

The inputs of a transaction are spent one after the other and its outputs created
one after the other.  For distinct parents and fresh output IDs the result is read
off the records before the transaction.
-/
namespace QdayNode
open ByteString RecordTable Outcome

variable {inputs : List V2SiacoinInput} {ids : ℕ → SiacoinOutputID} {outputs : List SiacoinOutput}
  {txn : V2Transaction}

variable {c : Crypto} {ms ms' ms'' : MidState}

def V2SiacoinInput.parentID (sci : V2SiacoinInput) : SiacoinOutputID := sci.parent.id

def V2Transaction.inputIDs (txn : V2Transaction) : List SiacoinOutputID :=
  txn.siacoinInputs.map V2SiacoinInput.parentID

namespace MidState

/-- Every input has been spent, in records that were there before or are new. -/
structure SpentAll (ms ms' : MidState) (inputs : List V2SiacoinInput) : Prop where
  same : SameBesides ms ms'
  keyed : ms'.Keyed
  spent : ∀ sci ∈ inputs, ms'.record sci.parentID = some (ms.spentDiff sci.parent)
  others : ∀ id, id ∉ inputs.map V2SiacoinInput.parentID → ms'.record id = ms.record id
  spends : ∀ id, (ms'.spends id).isSome = true ↔
    (ms.spends id).isSome = true ∨ id ∈ inputs.map V2SiacoinInput.parentID
  total : ∀ w, ms'.total w = ms.total w +
    (inputs.map fun sci => w (ms.spentDiff sci.parent) - (ms.record sci.parentID).elim 0 w).sum

theorem SpentAll.nil (hk : ms.Keyed) : SpentAll ms ms [] := by
  refine ⟨SameBesides.refl ms,hk,?_,fun _ _ => rfl,?_,?_⟩
  · intro sci hsci
    cases hsci
  · simp
  · simp

theorem SpentAll.snoc {sci : V2SiacoinInput} {txid : TransactionID}
    (h : SpentAll ms ms' inputs) (hnew : sci.parentID ∉ inputs.map V2SiacoinInput.parentID)
    (hrec : Records ms' ms'' sci.parentID (ms'.spentDiff sci.parent))
    (hspends : ms''.spends = Function.update ms'.spends sci.parentID (some txid)) :
    SpentAll ms ms'' (inputs ++ [sci]) := by
  have hold : ms'.record sci.parentID = ms.record sci.parentID := h.others _ hnew
  have hdiff : ms'.spentDiff sci.parent = ms.spentDiff sci.parent := by
    change SiacoinElementDiff.mk _ ((ms'.record sci.parentID).elim _ _) _ = _
    rw [hold]
    rfl
  rw [hdiff] at hrec
  refine ⟨h.same.trans hrec.same,hrec.keyed,?_,?_,?_,?_⟩
  · intro x hx
    rw [hrec.record_eq]
    rcases List.mem_append.mp hx with hx | hx
    · have hne : x.parentID ≠ sci.parentID := fun heq => hnew (heq ▸ List.mem_map_of_mem hx)
      rw [Function.update_of_ne hne,h.spent x hx]
    · obtain rfl := List.mem_singleton.mp hx
      rw [Function.update_self]
  · intro id hid
    rw [List.map_append,List.mem_append,not_or,List.map_singleton,List.mem_singleton] at hid
    rw [hrec.record_eq,Function.update_of_ne hid.2,h.others id hid.1]
  · intro id
    rw [hspends,List.map_append,List.mem_append,List.map_singleton,List.mem_singleton]
    by_cases hid : id = sci.parentID
    · rw [hid,Function.update_self]
      simp
    · rw [Function.update_of_ne hid,h.spends id]
      simp [hid]
  · intro w
    rw [hrec.total_eq,h.total,hold,List.map_append,List.sum_append,List.map_singleton,List.sum_singleton]
    omega

theorem Keyed.spendAll (hk : ms.Keyed) (txid : TransactionID)
    (hdistinct : (inputs.map V2SiacoinInput.parentID).Nodup) :
    ∃ ms', inputs.foldlM (fun ms sci => ms.spendSiacoinElement sci.parent txid) ms = .ok ms' ∧
      SpentAll ms ms' inputs := by
  refine foldlM_induct (P := fun pre ms' => SpentAll ms ms' pre) ?_ (SpentAll.nil hk)
  intro pre sci post ms₁ hsplit hpre
  obtain ⟨ms₂,hspend,hrec,hspends⟩ := hpre.keyed.spendSiacoinElement sci.parent txid
  refine ⟨ms₂,hspend,hpre.snoc (fun hmem => ?_) hrec hspends⟩
  rw [hsplit,List.map_append,List.map_cons,List.nodup_append] at hdistinct
  exact hdistinct.2.2 _ hmem _ List.mem_cons_self rfl

def freshDiff (maturityHeight : UInt64) (id : SiacoinOutputID) (sco : SiacoinOutput) : SiacoinElementDiff :=
  ⟨⟨id, StateElement.unassigned, sco, maturityHeight⟩, true, false⟩

/-- Every output has been created, in a new record. -/
structure CreatedAll (ms ms' : MidState) (maturityHeight : UInt64) (ids : ℕ → SiacoinOutputID)
    (outputs : List SiacoinOutput) : Prop where
  same : SameBesides ms ms'
  keyed : ms'.Keyed
  created : ∀ i sco, outputs[i]? = some sco → ms'.record (ids i) = some (freshDiff maturityHeight (ids i) sco)
  others : ∀ id, (∀ i < outputs.length, ids i ≠ id) → ms'.record id = ms.record id
  spends : ms'.spends = ms.spends
  total : ∀ w, ms'.total w = ms.total w + (outputs.mapIdx fun i sco => w (freshDiff maturityHeight (ids i) sco)).sum

variable {maturityHeight : UInt64}

theorem CreatedAll.nil (hk : ms.Keyed) : CreatedAll ms ms maturityHeight ids [] := by
  refine ⟨SameBesides.refl ms,hk,?_,fun _ _ => rfl,rfl,?_⟩
  · intro i sco hi
    cases hi
  · simp

theorem CreatedAll.snoc {sco : SiacoinOutput} (h : CreatedAll ms ms' maturityHeight ids outputs)
    (hnew : ∀ i < outputs.length, ids i ≠ ids outputs.length) (hfresh : ms.record (ids outputs.length) = none)
    (hrec : Records ms' ms'' (ids outputs.length) (ms'.createdDiff maturityHeight (ids outputs.length) sco))
    (hspends : ms''.spends = ms'.spends) : CreatedAll ms ms'' maturityHeight ids (outputs ++ [sco]) := by
  have hold : ms'.record (ids outputs.length) = none := (h.others _ hnew).trans hfresh
  have hdiff : ms'.createdDiff maturityHeight (ids outputs.length) sco =
      freshDiff maturityHeight (ids outputs.length) sco := by
    rw [createdDiff,hold]
    rfl
  rw [hdiff] at hrec
  refine ⟨h.same.trans hrec.same,hrec.keyed,?_,?_,hspends.trans h.spends,?_⟩
  · intro i x hi
    rw [hrec.record_eq]
    by_cases hlt : i < outputs.length
    · rw [List.getElem?_append_left hlt] at hi
      rw [Function.update_of_ne (hnew i hlt),h.created i x hi]
    · have hlast : i = outputs.length := by
        obtain ⟨hlt',-⟩ := List.getElem?_eq_some_iff.mp hi
        rw [List.length_append,List.length_singleton] at hlt'
        omega
      subst hlast
      obtain rfl : sco = x := by simpa using hi
      rw [Function.update_self]
  · intro id hid
    rw [List.length_append,List.length_singleton] at hid
    rw [hrec.record_eq,Function.update_of_ne (hid _ (Nat.lt_succ_self _)).symm,
      h.others id fun i hi => hid i (Nat.lt_succ_of_lt hi)]
  · intro w
    rw [hrec.total_eq,h.total,hold,List.mapIdx_append,List.sum_append]
    simp only [Option.elim_none,List.mapIdx_cons,List.mapIdx_nil,Nat.zero_add,List.sum_cons,List.sum_nil]
    omega

theorem Keyed.createAll (hk : ms.Keyed)
    (hinj : ∀ i < outputs.length, ∀ j < outputs.length, ids i = ids j → i = j)
    (hfresh : ∀ i < outputs.length, ms.record (ids i) = none) :
    ∃ ms', foldIdx (fun i sco ms => ms.createSiacoinElement (ids i) sco) outputs 0 ms = .ok ms' ∧
      CreatedAll ms ms' ms.base.childHeight ids outputs := by
  refine foldIdx_induct (P := fun pre ms' => CreatedAll ms ms' ms.base.childHeight ids pre) ?_
    (CreatedAll.nil hk)
  intro pre sco post ms₁ hsplit hpre
  have hlt : pre.length < outputs.length := by
    rw [hsplit,List.length_append,List.length_cons]
    omega
  obtain ⟨ms₂,hcreate,hrec,hspends⟩ := hpre.keyed.createSiacoinElementAt ms₁.base.childHeight (ids pre.length) sco
  refine ⟨ms₂,hcreate,hpre.snoc (fun i hi heq => ?_) (hfresh _ hlt) (hpre.same.base ▸ hrec) hspends⟩
  have := hinj i (hi.trans hlt) _ hlt heq
  omega

end MidState

section Transfer

def V2Transaction.coins (c : Crypto) (height : UInt64) (txn : V2Transaction) : List Coin :=
  txn.siacoinOutputs.mapIdx fun i sco => ⟨siacoinOutputID c (txn.id c) i, sco, height⟩

/-- A transfer, read off the records before it. -/
structure TransferApplied (c : Crypto) (ms ms' : MidState) (txn : V2Transaction) : Prop where
  same : MidState.SameBesides ms ms'
  keyed : ms'.Keyed
  spent : ∀ sci ∈ txn.siacoinInputs, ms'.record sci.parentID = some (ms.spentDiff sci.parent)
  created : ∀ i sco, txn.siacoinOutputs[i]? = some sco →
    ms'.record (siacoinOutputID c (txn.id c) i) =
      some (MidState.freshDiff ms.base.childHeight (siacoinOutputID c (txn.id c) i) sco)
  others : ∀ id, id ∉ txn.inputIDs → (∀ i < txn.siacoinOutputs.length, siacoinOutputID c (txn.id c) i ≠ id) →
    ms'.record id = ms.record id
  spends : ∀ id, (ms'.spends id).isSome = true ↔ (ms.spends id).isSome = true ∨ id ∈ txn.inputIDs
  total : ∀ w, ms'.total w = ms.total w +
    (txn.siacoinInputs.map fun sci => w (ms.spentDiff sci.parent) - (ms.record sci.parentID).elim 0 w).sum +
    (txn.siacoinOutputs.mapIdx fun i sco =>
      w (MidState.freshDiff ms.base.childHeight (siacoinOutputID c (txn.id c) i) sco)).sum

theorem transferApplied (hk : ms.Keyed) (hsupported : qdayUnsupported txn = false)
    (hdistinct : txn.inputIDs.Nodup)
    (hinj : ∀ i < txn.siacoinOutputs.length, ∀ j < txn.siacoinOutputs.length,
      siacoinOutputID c (txn.id c) i = siacoinOutputID c (txn.id c) j → i = j)
    (hfresh : ∀ i < txn.siacoinOutputs.length,
      ms.record (siacoinOutputID c (txn.id c) i) = none ∧ siacoinOutputID c (txn.id c) i ∉ txn.inputIDs) :
    ∃ ms', ms.applyV2Transaction c txn = .ok ms' ∧ TransferApplied c ms ms' txn := by
  obtain ⟨proved,hnote⟩ := ms.noteCanaryProof_eq txn
  rw [MidState.applyV2Transaction_of_supported hsupported,hnote]
  have hk' : MidState.Keyed { ms with qdayProved := proved } := hk
  obtain ⟨ms₁,hspend,h₁⟩ := hk'.spendAll (txn.id c) hdistinct
  obtain ⟨ms₂,hcreate,h₂⟩ := h₁.keyed.createAll hinj fun i hi => (h₁.others _ (hfresh i hi).2).trans (hfresh i hi).1
  have hbase : ms₁.base = ms.base := h₁.same.base
  refine ⟨ms₂,by rw [hspend,ok_bind,hcreate],⟨?_,h₂.keyed,?_,?_,?_,?_,?_⟩⟩
  · have hsame := h₁.same.trans h₂.same
    exact ⟨hsame.1,hsame.2,hsame.3,hsame.4,hsame.5,hsame.6,hsame.7,hsame.8⟩
  · intro sci hsci
    rw [h₂.others _ fun i hi heq => (hfresh i hi).2 (heq ▸ List.mem_map_of_mem hsci)]
    exact h₁.spent sci hsci
  · intro i sco hi
    rw [← hbase]
    exact h₂.created i sco hi
  · intro id hin hout
    rw [h₂.others id hout]
    exact h₁.others id hin
  · intro id
    rw [h₂.spends]
    exact h₁.spends id
  · intro w
    rw [h₂.total w,h₁.total w,hbase]
    rfl

/-- Every record after a transfer is that of an input, of an output, or untouched. -/
theorem TransferApplied.record_cases (h : TransferApplied c ms ms' txn) {id : SiacoinOutputID}
    {d : SiacoinElementDiff} (hd : ms'.record id = some d) :
    (∃ sci ∈ txn.siacoinInputs, sci.parentID = id ∧ d = ms.spentDiff sci.parent) ∨
    (∃ i sco, txn.siacoinOutputs[i]? = some sco ∧ siacoinOutputID c (txn.id c) i = id ∧
      d = MidState.freshDiff ms.base.childHeight id sco) ∨
    (id ∉ txn.inputIDs ∧ ms.record id = some d) := by
  by_cases hin : id ∈ txn.inputIDs
  · obtain ⟨sci,hsci,rfl⟩ := List.mem_map.mp hin
    exact .inl ⟨sci,hsci,rfl,Option.some.inj (hd.symm.trans (h.spent sci hsci))⟩
  · by_cases hout : ∃ i < txn.siacoinOutputs.length, siacoinOutputID c (txn.id c) i = id
    · obtain ⟨i,hi,rfl⟩ := hout
      have hsco := List.getElem?_eq_getElem hi
      exact .inr (.inl ⟨i,_,hsco,rfl,Option.some.inj (hd.symm.trans (h.created i _ hsco))⟩)
    · have hnone : ∀ i < txn.siacoinOutputs.length, siacoinOutputID c (txn.id c) i ≠ id :=
        fun i hi heq => hout ⟨i,hi,heq⟩
      exact .inr (.inr ⟨hin,(h.others id hin hnone).symm.trans hd⟩)

end Transfer

end QdayNode
