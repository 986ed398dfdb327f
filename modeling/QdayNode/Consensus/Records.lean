import QdayNode.Consensus.Validation
import QdayNode.Consensus.Membership

/-!
# The records of a block

Inside a block the records of siacoin elements denote a map from output IDs to
diffs.  Spending and creating are updates of that map and do not panic.  What
validation leaves behind is that every record with a position in the accumulator
is an unspent element of it that the block has spent.
-/
namespace QdayNode
open ByteString RecordTable Outcome

variable {ms : MidState}

namespace MidState

def Keyed (ms : MidState) : Prop :=
  RecordTable.Keyed (fun d : SiacoinElementDiff => d.siacoinElement.id) ms.elements ms.sces

def total (ms : MidState) (w : SiacoinElementDiff → ℤ) : ℤ := (ms.sces.map w).sum

/-- What siacoin operations leave alone. -/
structure SameBesides (ms ms' : MidState) : Prop where
  base : ms'.base = ms.base
  siafundTaxRevenue : ms'.siafundTaxRevenue = ms.siafundTaxRevenue
  foundationSubsidy : ms'.foundationSubsidy = ms.foundationSubsidy
  foundationManagement : ms'.foundationManagement = ms.foundationManagement
  sfes : ms'.sfes = ms.sfes
  fces : ms'.fces = ms.fces
  v2fces : ms'.v2fces = ms.v2fces
  aes : ms'.aes = ms.aes

theorem SameBesides.refl (ms : MidState) : SameBesides ms ms := ⟨rfl,rfl,rfl,rfl,rfl,rfl,rfl,rfl⟩

theorem SameBesides.trans {ms' ms'' : MidState} (h : SameBesides ms ms') (h' : SameBesides ms' ms'') :
    SameBesides ms ms'' :=
  ⟨h'.base.trans h.base,h'.siafundTaxRevenue.trans h.siafundTaxRevenue,
    h'.foundationSubsidy.trans h.foundationSubsidy,h'.foundationManagement.trans h.foundationManagement,
    h'.sfes.trans h.sfes,h'.fces.trans h.fces,h'.v2fces.trans h.v2fces,h'.aes.trans h.aes⟩

/-- The record of `id` has become `d`, every other record is as before. -/
structure Records (ms ms' : MidState) (id : SiacoinOutputID) (d : SiacoinElementDiff) : Prop where
  same : SameBesides ms ms'
  keyed : ms'.Keyed
  record_eq : ms'.record = Function.update ms.record id (some d)
  total_eq : ∀ w, ms'.total w = ms.total w - (ms.record id).elim 0 w + w d

theorem Keyed.record_eq_some (hk : ms.Keyed) {id : SiacoinOutputID} {d : SiacoinElementDiff} :
    ms.record id = some d ↔ d ∈ ms.sces ∧ d.siacoinElement.id = id := hk.find_eq_some

theorem Keyed.recordSiacoinElement (hk : ms.Keyed) (id : SiacoinOutputID)
    (f : Option SiacoinElementDiff → SiacoinElementDiff) (hid : (f (ms.record id)).siacoinElement.id = id) :
    ∃ ms', ms.recordSiacoinElement id f = .ok ms' ∧ Records ms ms' id (f (ms.record id)) ∧ ms'.spends = ms.spends := by
  obtain ⟨elements,sces,hupsert,hwritten⟩ :=
    RecordTable.Keyed.upsert hk (k := id) (f := fun d => .ok (f d)) rfl hid
  refine ⟨{ ms with elements, sces },?_,⟨⟨rfl,rfl,rfl,rfl,rfl,rfl,rfl,rfl⟩,hwritten.keyed,?_,?_⟩,rfl⟩
  · rw [MidState.recordSiacoinElement,hupsert]
    rfl
  · exact hwritten.find_eq
  · exact hwritten.sum_eq

def spentDiff (ms : MidState) (sce : SiacoinElement) : SiacoinElementDiff :=
  ⟨sce, (ms.record sce.id).elim false SiacoinElementDiff.created, true⟩

def createdDiff (ms : MidState) (maturityHeight : UInt64) (id : SiacoinOutputID) (sco : SiacoinOutput) :
    SiacoinElementDiff :=
  ⟨⟨id, StateElement.unassigned, sco, maturityHeight⟩, true, (ms.record id).elim false SiacoinElementDiff.spent⟩

theorem Keyed.spendSiacoinElement (hk : ms.Keyed) (sce : SiacoinElement) (txid : TransactionID) :
    ∃ ms', ms.spendSiacoinElement sce txid = .ok ms' ∧ Records ms ms' sce.id (ms.spentDiff sce) ∧
      ms'.spends = Function.update ms.spends sce.id (some txid) := by
  obtain ⟨ms',hrec,h,hspends⟩ := hk.recordSiacoinElement sce.id (fun d =>
    { siacoinElement := sce, created := d.elim false SiacoinElementDiff.created, spent := true }) rfl
  refine ⟨ms'.markSpent sce.id txid,?_,⟨⟨h.same.1,h.same.2,h.same.3,h.same.4,h.same.5,h.same.6,h.same.7,
    h.same.8⟩,h.keyed,h.record_eq,h.total_eq⟩,?_⟩
  · rw [MidState.spendSiacoinElement,hrec]
    rfl
  · rw [markSpent,hspends]

theorem Keyed.createSiacoinElementAt (hk : ms.Keyed) (maturityHeight : UInt64) (id : SiacoinOutputID)
    (sco : SiacoinOutput) :
    ∃ ms', ms.createSiacoinElementAt maturityHeight id sco = .ok ms' ∧
      Records ms ms' id (ms.createdDiff maturityHeight id sco) ∧ ms'.spends = ms.spends :=
  hk.recordSiacoinElement id _ rfl

end MidState

end QdayNode
