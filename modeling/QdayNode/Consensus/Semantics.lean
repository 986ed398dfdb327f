import QdayNode.Consensus.Identifiers
import QdayNode.Consensus.EncodingSize

/-!
# What transaction IDs and signatures cover

A transaction ID and the hash an input signs are taken over the semantic encoding of the
transaction, the latter together with the domain of the network.  Of a coin transfer the
encoding shows which outputs are spent, the new outputs, the data and the fee, and
nothing of the witnesses, the proofs and the positions of the parents.
-/
namespace QdayNode
open ByteString

/-- What a coin transfer does. -/
structure SameEffects (txn txn' : V2Transaction) : Prop where
  inputIDs : txn.inputIDs = txn'.inputIDs
  siacoinOutputs : txn.siacoinOutputs = txn'.siacoinOutputs
  arbitraryData : txn.arbitraryData = txn'.arbitraryData
  minerFee : txn.minerFee = txn'.minerFee

/-- The slices of a coin transfer have lengths of a machine word. -/
structure V2Transaction.Sized (txn : V2Transaction) : Prop where
  siacoinInputs : txn.siacoinInputs.length < 2^64
  siacoinOutputs : txn.siacoinOutputs.length < 2^64
  arbitraryData : txn.arbitraryData.length < 2^64

def V2SiacoinInput.bare (sci : V2SiacoinInput) : V2SiacoinInput where
  parent := { sci.parent with stateElement := ⟨0, []⟩, maturityHeight := 0 }
  satisfiedPolicy := { sci.satisfiedPolicy with signatures := [], preimages := [] }

def V2Transaction.bare (txn : V2Transaction) : V2Transaction :=
  { txn with siacoinInputs := txn.siacoinInputs.map V2SiacoinInput.bare }

/-- The string an input's signatures are checked against is the hash of this one. -/
def State.inputSigPreimage (s : State) (txn : V2Transaction) : Bytes :=
  Crypto.distinguisher "qday/sig/input/v1" ++ s.network.qday.domain.val ++ txn.encodeSemantics

section Coverage

variable {c : Crypto} {S : Set Bytes} {txn txn' : V2Transaction} {s s' : State}

theorem State.inputSigHash_eq : s.inputSigHash c txn = c.sum256 (s.inputSigPreimage txn) := rfl

theorem prefixCode_siacoinOutput : PrefixCode SiacoinOutput.encodeV2 := by
  intro sco sco' r r' _ _ heq
  simp only [SiacoinOutput.encodeV2,List.append_assoc] at heq
  obtain ⟨hvalue,heq⟩ := Currency.prefixCode_encodeV2.apply heq
  obtain ⟨haddress,hr⟩ := (prefixCode_fixedBytes 32).apply heq
  cases sco
  cases sco'
  cases hvalue
  cases haddress
  exact ⟨rfl,hr⟩

/-- The semantic encoding of a coin transfer: the other lists are written as empty ones. -/
theorem encodeSemantics_transfer (h : qdayUnsupported txn = false) :
    txn.encodeSemantics = encodeList (fun id : SiacoinOutputID => id.val) txn.inputIDs ++
      (encodeList SiacoinOutput.encodeV2 txn.siacoinOutputs ++ (List.replicate 48 0 ++
        (encodeBytes txn.arbitraryData ++ ([0] ++ txn.minerFee.encodeV2)))) := by
  obtain ⟨hsfi,hsfo,hfc,hrev,hres,hatt,haddr⟩ := V2Transaction.supported_iff.mp h
  have hids : encodeList (fun sci : V2SiacoinInput => sci.parent.id.val) txn.siacoinInputs =
      encodeList (fun id : SiacoinOutputID => id.val) txn.inputIDs :=
    encodeList_map (fun id : SiacoinOutputID => id.val) V2SiacoinInput.parentID txn.siacoinInputs
  have hempty : ∀ {α : Type} (enc : α → Bytes), encodeList enc [] = List.replicate 8 0 := fun enc => by
    have hlength : encodeUint64 (UInt64.ofNat 0) ++ [] = List.replicate 8 0 := by decide
    exact hlength
  have hzeros : (List.replicate 48 0 : Bytes) = List.replicate 8 0 ++ (List.replicate 8 0 ++ (List.replicate 8 0 ++
      (List.replicate 8 0 ++ (List.replicate 8 0 ++ List.replicate 8 0)))) := by decide
  have hnone : encodeOption Subtype.val (none : Option Address) = [0] := rfl
  rw [V2Transaction.encodeSemantics,hids,hsfi,hsfo,hfc,hrev,hres,hatt,haddr,hnone,hzeros]
  simp only [hempty,List.append_assoc]

theorem sameEffects_of_encodeSemantics (h : qdayUnsupported txn = false) (h' : qdayUnsupported txn' = false)
    (hsized : txn.Sized) (hsized' : txn'.Sized) (heq : txn.encodeSemantics = txn'.encodeSemantics) :
    SameEffects txn txn' := by
  have hcount : ∀ t : V2Transaction, t.Sized → t.inputIDs.length < 2^64 := fun t ht => by
    rw [V2Transaction.inputIDs,List.length_map]
    exact ht.siacoinInputs
  rw [encodeSemantics_transfer h,encodeSemantics_transfer h'] at heq
  obtain ⟨hids,heq⟩ := (prefixCode_fixedBytes 32).list ⟨hcount txn hsized,fun _ _ => trivial⟩
    ⟨hcount txn' hsized',fun _ _ => trivial⟩ heq
  obtain ⟨houts,heq⟩ := prefixCode_siacoinOutput.list ⟨hsized.siacoinOutputs,fun _ _ => trivial⟩
    ⟨hsized'.siacoinOutputs,fun _ _ => trivial⟩ heq
  obtain ⟨hdata,heq⟩ := prefixCode_encodeBytes hsized.arbitraryData hsized'.arbitraryData (List.append_cancel_left heq)
  exact ⟨hids,houts,hdata,Currency.prefixCode_encodeV2.inj trivial trivial (List.append_cancel_left heq)⟩

theorem domain_of_inputSigPreimage (heq : s.inputSigPreimage txn = s'.inputSigPreimage txn') :
    s.network.qday.domain = s'.network.qday.domain ∧ txn.encodeSemantics = txn'.encodeSemantics := by
  simp only [State.inputSigPreimage,List.append_assoc] at heq
  exact (prefixCode_fixedBytes 32).apply (List.append_cancel_left heq)

theorem encodeSemantics_bare (txn : V2Transaction) : txn.bare.encodeSemantics = txn.encodeSemantics := by
  have hids : encodeList (fun sci : V2SiacoinInput => sci.parent.id.val) txn.bare.siacoinInputs =
      encodeList (fun sci : V2SiacoinInput => sci.parent.id.val) txn.siacoinInputs :=
    (encodeList_map (fun sci : V2SiacoinInput => sci.parent.id.val) V2SiacoinInput.bare txn.siacoinInputs).symm
  rw [V2Transaction.encodeSemantics,hids]
  rfl

/-- A transaction ID, and the hash that inputs sign together with the network's domain, stand for
the effects of a coin transfer and for nothing else. -/
theorem effects_covered (hinj : Set.InjOn c.sum256 S) (h : qdayUnsupported txn = false)
    (h' : qdayUnsupported txn' = false) (hsized : txn.Sized) (hsized' : txn'.Sized)
    (hS : txn.idPreimage ∈ S ∧ s.inputSigPreimage txn ∈ S) (hS' : txn'.idPreimage ∈ S ∧ s'.inputSigPreimage txn' ∈ S) :
    (txn.id c = txn'.id c → SameEffects txn txn') ∧
      (s.inputSigHash c txn = s'.inputSigHash c txn' →
        SameEffects txn txn' ∧ s.network.qday.domain = s'.network.qday.domain) ∧
      (txn.bare = txn'.bare → txn.id c = txn'.id c ∧ s.inputSigHash c txn = s.inputSigHash c txn') := by
  refine ⟨fun hid => ?_,fun hsig => ?_,fun hbare => ?_⟩
  · have heq := List.append_cancel_left (hinj hS.1 hS'.1 hid)
    exact sameEffects_of_encodeSemantics h h' hsized hsized' heq
  · obtain ⟨hdomain,heq⟩ := domain_of_inputSigPreimage (hinj hS.2 hS'.2 hsig)
    exact ⟨sameEffects_of_encodeSemantics h h' hsized hsized' heq,hdomain⟩
  · have heq : txn.encodeSemantics = txn'.encodeSemantics := by
      rw [← encodeSemantics_bare txn,hbare,encodeSemantics_bare]
    rw [V2Transaction.id,V2Transaction.id,V2Transaction.idPreimage,V2Transaction.idPreimage,
      State.inputSigHash_eq,State.inputSigHash_eq,State.inputSigPreimage,State.inputSigPreimage,heq]
    exact ⟨rfl,rfl⟩

theorem effects_covered_sample :
    let s := sampleState ⟨fun _ => default,0⟩
    SameEffects sampleTransfer sampleTransfer.bare ∧ sampleTransfer.id sampleCrypto = sampleTransfer.bare.id sampleCrypto ∧
      s.inputSigHash sampleCrypto sampleTransfer = s.inputSigHash sampleCrypto sampleTransfer.bare := by
  intro s
  let strings := [sampleTransfer.idPreimage,s.inputSigPreimage sampleTransfer]
  have hinj : Set.InjOn sampleCrypto.sum256 {x | x ∈ strings} := injOn_of_nodup (by decide +kernel)
  have hid : sampleTransfer.idPreimage ∈ {x | x ∈ strings} := List.mem_cons_self
  have hsig : s.inputSigPreimage sampleTransfer ∈ {x | x ∈ strings} := List.mem_cons_of_mem _ List.mem_cons_self
  have hid' : sampleTransfer.bare.idPreimage ∈ {x | x ∈ strings} := by
    rwa [V2Transaction.idPreimage,encodeSemantics_bare]
  have hsig' : s.inputSigPreimage sampleTransfer.bare ∈ {x | x ∈ strings} := by
    rwa [State.inputSigPreimage,encodeSemantics_bare]
  have hsized : sampleTransfer.Sized := ⟨by decide,by decide,by decide +kernel⟩
  have hsized' : sampleTransfer.bare.Sized := ⟨by decide,by decide,by decide +kernel⟩
  obtain ⟨heffects,-,hsame⟩ := effects_covered hinj (by decide) (by decide) hsized hsized' ⟨hid,hsig⟩ ⟨hid',hsig'⟩
  obtain ⟨hids,hsigs⟩ := hsame rfl
  exact ⟨heffects hids,hids,hsigs⟩

end Coverage

end QdayNode
