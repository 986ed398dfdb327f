import QdayNode.Consensus.Multiproof
import QdayNode.Consensus.HybridSpend

/-!
# The size of transactions and blocks on the wire

The weight of a transaction counts neither Merkle proofs nor framing.  An element in
the accumulator has a proof of fewer than 64 hashes; the proof of an element created in
the same block is written to the wire but never looked at, so its length is not bounded.
-/
namespace QdayNode
open ByteString Word64 MerkleForest Outcome

variable {h : ℕ} {c : Crypto} {txns : List V2Transaction} {txn : V2Transaction} {α X : Type} {ms : MidState}
  {sci : V2SiacoinInput}

section Returns

theorem firstSibling_returns {ls : List ElementLeaf} {k : ℕ} (hne : ls ≠ []) (hlen : ∀ l ∈ ls, k < l.merkleProof.length) :
    ∃ h, firstSibling ls k = .ok h := by
  obtain ⟨l,ls,rfl⟩ := List.exists_cons_of_ne_nil hne
  exact ⟨_,by simp [firstSibling,List.getElem?_eq_getElem (hlen l List.mem_cons_self)]; rfl⟩

theorem computeHalf_returns {recurse : List ElementLeaf → Outcome (List Hash256)} {half other : List ElementLeaf}
    (hne : half = [] → other ≠ []) (hlen : ∀ l ∈ other, h + 1 ≤ l.merkleProof.length)
    (hrec : half ≠ [] → ∃ hashes, recurse half = .ok hashes ∧ hashes.length ≤ h * half.length) :
    ∃ hashes, computeHalf recurse (h+1) half other = .ok hashes ∧
      hashes.length ≤ if half = [] then 1 else h * half.length := by
  by_cases hempty : half = []
  · obtain ⟨root,hroot⟩ := firstSibling_returns (hne hempty) hlen
    exact ⟨[root],by simp [computeHalf,hempty,hroot],by simp [hempty]⟩
  · obtain ⟨hashes,hrun,hle⟩ := hrec hempty
    rw [if_neg hempty,computeHalf,if_neg (by simpa using hempty)]
    exact ⟨hashes,hrun,hle⟩

/-- Over leaves with proofs that are long enough, the recursion returns at most one hash for each
row of each proof. -/
theorem computeVisit_returns {fuel a b : ℕ} {leaves : List ElementLeaf} (hfuel : h < fuel)
    (v : AlignedRange h a b) (hne : leaves ≠ []) (hlen : ∀ l ∈ leaves, h ≤ l.merkleProof.length) :
    ∃ hashes, computeVisit fuel (a * 2^h) (b * 2^h) leaves = .ok hashes ∧ hashes.length ≤ h * leaves.length := by
  induction fuel generalizing h a b leaves with
  | zero => omega
  | succ fuel ih =>
    simp only [computeVisit,v.trailingZeros]
    cases h with
    | zero => exact ⟨[],by simp⟩
    | succ h =>
      obtain ⟨m,hmid,vL,vR⟩ := v.mid
      have happend := splitLeaves_append leaves (m * 2^h)
      cases hsplit : splitLeaves leaves (m * 2^h) with
      | mk left right =>
        rw [hsplit] at happend
        dsimp only at happend
        subst happend
        rw [List.forall_mem_append] at hlen
        obtain ⟨hlenL,hlenR⟩ := hlen
        have hboth : ¬ (left = [] ∧ right = []) := fun hnil => hne (by rw [hnil.1,hnil.2,List.nil_append])
        have hstart : a * 2^(h+1) = 2*a * 2^h := by ring
        have hstop : b * 2^(h+1) = 2*b * 2^h := by ring
        obtain ⟨hashesL,hL,hleL⟩ := computeHalf_returns (fun hL hR => hboth ⟨hL,hR⟩) hlenR
          fun hL => ih (by omega) vL hL fun l hl => (Nat.le_succ h).trans (hlenL l hl)
        obtain ⟨hashesR,hR,hleR⟩ := computeHalf_returns (fun hR hL => hboth ⟨hL,hR⟩) hlenL
          fun hR => ih (by omega) vR hR fun l hl => (Nat.le_succ h).trans (hlenR l hl)
        refine ⟨hashesL ++ hashesR,?_,?_⟩
        · rw [hmid,hsplit,hstart,hstop]
          simp only [Nat.succ_ne_zero,if_false,hL,hR,ok_bind]
          rfl
        · rw [List.length_append,List.length_append,Nat.add_mul,Nat.mul_add,Nat.one_mul]
          simp only [← List.length_eq_zero_iff] at hleL hleR hboth
          split_ifs at hleL hleR with hL hR hR
          · exact absurd ⟨hL,hR⟩ hboth
          · omega
          · omega
          · omega

/-- A leaf contributes the length of its proof once, in the tree it belongs to. -/
theorem sum_proofLengths {leaves : List ElementLeaf} (hlen : ∀ l ∈ leaves, l.merkleProof.length < 64) :
    ((List.range 64).map fun k => k * (leaves.filter fun l => l.merkleProof.length = k).length).sum =
      (leaves.map fun l => l.merkleProof.length).sum := by
  induction leaves with
  | nil => simp
  | cons l ls ih =>
    rw [List.forall_mem_cons] at hlen
    have hsplit : ∀ k, k * ((l :: ls).filter fun l => l.merkleProof.length = k).length =
        (if l.merkleProof.length = k then k else 0) + k * (ls.filter fun l => l.merkleProof.length = k).length := by
      intro k
      rw [List.filter_cons]
      split_ifs with h h' h'
      · rw [List.length_cons,Nat.mul_succ,Nat.add_comm]
      · exact absurd (of_decide_eq_true h) h'
      · exact absurd (decide_eq_true h') h
      · rw [Nat.zero_add]
    have hone : ((List.range 64).map fun k => if l.merkleProof.length = k then k else 0).sum = l.merkleProof.length := by
      have hfinset := Finset.sum_ite_eq (Finset.range 64) l.merkleProof.length fun k => k
      rw [if_pos (Finset.mem_range.mpr hlen.1)] at hfinset
      exact hfinset
    simp only [hsplit]
    rw [List.sum_map_add,hone,ih hlen.2,List.map_cons,List.sum_cons]

theorem length_treeLeaves (leaves : List ElementLeaf) (k : ℕ) :
    (treeLeaves leaves k).length = (leaves.filter fun l => l.merkleProof.length = k).length := by
  rw [treeLeaves,List.length_insertionSort]

/-- `computeMultiproof` returns, with no more hashes than the proofs it replaces. -/
theorem computeMultiproof_returns
    (hlen : ∀ l ∈ forEachElementLeaf c txns, l.merkleProof.length < 64) :
    ∃ hashes, computeMultiproof c txns = .ok hashes ∧
      hashes.length ≤ ((forEachElementLeaf c txns).map fun l => l.merkleProof.length).sum := by
  set leaves := forEachElementLeaf c txns with hleaves
  have hno : ¬ ∃ l ∈ leaves, 64 ≤ l.merkleProof.length := by
    rintro ⟨l,hl,hle⟩
    exact absurd (hlen l hl) (not_lt.mpr hle)
  rw [computeMultiproof,forEachTree,← hleaves,crashIf,if_neg hno,ok_bind,← sum_proofLengths hlen]
  refine foldlM_induct (P := fun pre (hashes : List Hash256) =>
    hashes.length ≤ (pre.map fun k => k * (leaves.filter fun l => l.merkleProof.length = k).length).sum) ?_ le_rfl
  intro pre k post hashes hrange hle
  rw [List.map_append,List.sum_append,List.map_singleton,List.sum_singleton,← length_treeLeaves]
  cases hgroup : treeLeaves leaves k with
  | nil => exact ⟨hashes,rfl,hle.trans (Nat.le_add_right _ _)⟩
  | cons l ls =>
    have hk : k < 64 := by
      have hmem : k ∈ List.range 64 := by
        rw [hrange]
        exact List.mem_append_right _ List.mem_cons_self
      exact List.mem_range.mp hmem
    have hrows : ∀ m ∈ l :: ls, k ≤ m.merkleProof.length := fun m hm => (mem_treeLeaves.mp (hgroup ▸ hm)).2.ge
    obtain ⟨m,hm⟩ := two_pow_64_eq hk
    have hindex : l.leafIndex < 2^64 := l.stateElement.leafIndex.toNat_lt
    have hstart : clearBits l.leafIndex (k+1) = 2 * (l.leafIndex / 2^(k+1)) * 2^k := by
      rw [clearBits]
      ring
    generalize l.leafIndex / 2^(k+1) = d at hstart
    have hbelow : 2 * d * 2^k < 2^64 := by
      rw [← hstart]
      exact (Nat.div_mul_le_self _ _).trans_lt hindex
    have habove : (2 * d + 1) * 2^k < 2^64 := by
      rw [hm] at hbelow ⊢
      have := Nat.lt_of_mul_lt_mul_right hbelow
      exact Nat.mul_lt_mul_of_pos_right (by omega) (Nat.two_pow_pos k)
    have hstop : (2 * d * 2^k + 2^k) % 2^64 = (2 * d + 1) * 2^k := by
      rw [Nat.add_mul,Nat.one_mul] at habove ⊢
      exact Nat.mod_eq_of_lt habove
    obtain ⟨new,hrun,hnew⟩ := computeVisit_returns (show k < 65 by omega) ⟨hk,by omega,hbelow,habove⟩
      (List.cons_ne_nil l ls) hrows
    refine ⟨hashes ++ new,?_,?_⟩
    · simp only [hstart,hstop,hrun,ok_bind]
      rfl
    · rw [List.length_append]
      exact Nat.add_le_add hle hnew

end Returns

section Lengths

@[simp] theorem StateElement.length_encode (se : StateElement) : se.encode.length = 16 + 32 * se.merkleProof.length := by
  simp [StateElement.encode,Nat.mul_comm 32]
  omega

theorem V2SiacoinInput.length_encode (sci : V2SiacoinInput) :
    sci.encode.length = sci.sansProof.encode.length + 32 * sci.parent.stateElement.merkleProof.length := by
  simp only [V2SiacoinInput.encode,SiacoinElement.encode,V2SiacoinInput.sansProof,StateElement.sansProof,
    List.length_append,StateElement.length_encode,List.length_nil]
  omega

namespace V2Transaction

def proofHashes (txn : V2Transaction) : ℕ := (txn.siacoinInputs.map fun sci => sci.parent.stateElement.merkleProof.length).sum

/-- The bytes of version, field mask, length fields and fee of a coin transfer. -/
def framing (txn : V2Transaction) : ℕ :=
  9 + (if txn.siacoinInputs.isEmpty then 0 else 8) + (if txn.siacoinOutputs.isEmpty then 0 else 8) +
    (if txn.arbitraryData.isEmpty then 0 else 8) + (if txn.minerFee.isZero then 0 else 16)

theorem supported_iff : qdayUnsupported txn = false ↔
    txn.siafundInputs = [] ∧ txn.siafundOutputs = [] ∧ txn.fileContracts = [] ∧ txn.fileContractRevisions = [] ∧
      txn.fileContractResolutions = [] ∧ txn.attestations = [] ∧ txn.newFoundationAddress = none := by
  simp [qdayUnsupported,and_assoc]

theorem length_listField (enc : α → Bytes) (l : List α) :
    (encodeField (!l.isEmpty) (encodeList enc l)).length =
      (if l.isEmpty then 0 else 8) + (l.map fun a => (enc a).length).sum := by
  cases l with
  | nil => rfl
  | cons a l => simp [encodeField]

theorem length_dataField (b : Bytes) :
    (encodeField (!b.isEmpty) (encodeBytes b)).length = (if b.isEmpty then 0 else 8) + b.length := by
  cases b with
  | nil => rfl
  | cons x b => simp [encodeField]

theorem length_feeField (v : Currency) :
    (encodeField (!v.isZero) v.encodeV2).length = if v.isZero then 0 else 16 := by
  cases v.isZero with
  | false => simp [encodeField,Currency.encodeV2]
  | true => rfl

theorem sum_length_encode (scis : List V2SiacoinInput) :
    (scis.map fun sci => sci.encode.length).sum = (scis.map fun sci => sci.sansProof.encode.length).sum +
      32 * (scis.map fun sci => sci.parent.stateElement.merkleProof.length).sum := by
  induction scis with
  | nil => rfl
  | cons sci scis ih =>
    simp only [List.map_cons,List.sum_cons,ih,sci.length_encode]
    omega

theorem length_encode_parts (h : qdayUnsupported txn = false) :
    txn.encode.length = (txn.siacoinInputs.map fun sci => sci.encode.length).sum +
      (txn.siacoinOutputs.map fun sco => sco.encodeV2.length).sum + txn.arbitraryData.length + txn.framing := by
  obtain ⟨hsfi,hsfo,hfc,hrev,hres,hatt,haddr⟩ := supported_iff.mp h
  rw [encode,List.length_cons]
  simp only [List.length_append,length_encodeUint64,length_listField,length_dataField,length_feeField,hsfi,hsfo,
    hfc,hrev,hres,hatt,haddr]
  simp only [List.isEmpty_nil,List.map_nil,List.sum_nil,Option.isSome_none,encodeField,Bool.false_eq_true,
    if_false,if_true,List.length_nil,framing]
  omega

theorem length_encode (h : qdayUnsupported txn = false) :
    txn.encode.length = txn.weighed.length + 32 * txn.proofHashes + txn.framing := by
  obtain ⟨hsfi,hsfo,hfc,hrev,hres,hatt,haddr⟩ := supported_iff.mp h
  have hweighed : txn.weighed.length = (txn.siacoinInputs.map fun sci => sci.sansProof.encode.length).sum +
      (txn.siacoinOutputs.map fun sco => sco.encodeV2.length).sum + txn.arbitraryData.length := by
    simp only [weighed,hsfi,hsfo,hfc,hrev,hres,hatt,haddr,List.flatMap_nil,List.length_append,List.length_nil,
      List.length_flatMap,Option.elim_none]
    omega
  rw [length_encode_parts h,hweighed,sum_length_encode,proofHashes]
  omega

end V2Transaction

end Lengths

section Accepted

theorem SpendAccepted.weight {sigHash : Hash256} (h : SpendAccepted c ms sigHash sci) :
    7872 ≤ sci.sansProof.encode.length := by
  obtain ⟨k,rest,hsigned,-⟩ := h.signed
  obtain ⟨chunks,hchunks,hreserve⟩ := hsigned.reserve
  simp only [verifyQdayReserve,Bool.and_eq_true] at hreserve
  have hall : chunks.length = 246 := of_decide_eq_true hreserve.1.1
  have hcount : 246 ≤ sci.satisfiedPolicy.preimages.length := by
    rw [hchunks,List.length_append,hall]
    omega
  simp only [V2SiacoinInput.encode,V2SiacoinInput.sansProof,SatisfiedPolicy.encode,List.length_append,
    length_encodeList,FixedBytes.length_val,List.map_const',List.sum_replicate,smul_eq_mul]
  omega

theorem TransferAccepted.weight (h : TransferAccepted c ms txn) : 7872 * txn.siacoinInputs.length ≤ txn.weighed.length := by
  have hinputs : 7872 * txn.siacoinInputs.length ≤ (txn.siacoinInputs.map fun sci => sci.sansProof.encode.length).sum := by
    rw [Nat.mul_comm,← smul_eq_mul,← List.length_map (f := fun sci : V2SiacoinInput => sci.sansProof.encode.length)]
    refine List.card_nsmul_le_sum _ _ (List.forall_mem_map.mpr fun sci hsci => ?_)
    exact (spends_accepted h.valid sci hsci).weight
  refine hinputs.trans ?_
  rw [V2Transaction.weighed,List.length_append,List.length_flatMap]
  exact Nat.le_add_right _ _

theorem ElementAccumulator.proof_lt {acc : ElementAccumulator} {l : ElementLeaf} (h : acc.containsLeaf c l = true) :
    l.merkleProof.length < 64 := by
  simp only [ElementAccumulator.containsLeaf,Bool.and_eq_true,ElementAccumulator.hasTreeAtHeight] at h
  have hge := Nat.ge_two_pow_of_testBit h.1
  exact (Nat.pow_lt_pow_iff_right (by omega : 1 < 2)).mp (hge.trans_lt acc.numLeaves.toNat_lt)

/-- What the claimed bound leaves for proofs and framing. -/
def V2Transaction.WithinAllowance (txn : V2Transaction) : Prop :=
  32 * txn.proofHashes + txn.framing ≤ 2048 * txn.siacoinInputs.length + 128

theorem V2Transaction.framing_le (txn : V2Transaction) : txn.framing ≤ 49 := by
  unfold V2Transaction.framing
  split_ifs <;> omega

theorem withinAllowance_of_short (h : ∀ sci ∈ txn.siacoinInputs, sci.parent.stateElement.merkleProof.length ≤ 64) :
    txn.WithinAllowance := by
  have hsum : txn.proofHashes ≤ txn.siacoinInputs.length * 64 := by
    have hle := List.sum_le_card_nsmul (txn.siacoinInputs.map fun sci => sci.parent.stateElement.merkleProof.length) 64
      (List.forall_mem_map.mpr h)
    rwa [List.length_map,smul_eq_mul] at hle
  have := txn.framing_le
  unfold V2Transaction.WithinAllowance
  omega

theorem IsMarker.data_ge (h : IsMarker txn) : 16 ≤ txn.arbitraryData.length := by
  obtain ⟨e,he,-⟩ := h.kind
  rw [parseQdayEnvelope,bind_unit_eq_ok,rejectIf_eq_ok,not_or] at he
  exact not_lt.mp he.1.1

theorem Admitted.encode_le (h : Admitted c ms txn) (hallowed : txn.WithinAllowance) :
    16 * txn.encode.length ≤ 33 * txn.weighed.length := by
  rw [V2Transaction.length_encode h.supported]
  unfold V2Transaction.WithinAllowance at hallowed
  rcases h with hmarker | htransfer
  · -- a marker is its envelope, of at least 16 bytes
    have hdata : 16 ≤ txn.weighed.length := by
      have hparsed := hmarker.data_ge
      simp only [V2Transaction.weighed,List.length_append]
      omega
    have hframing : txn.framing ≤ 17 := by
      have hfee : txn.minerFee.isZero = true := (Currency.isZero_iff _).mpr hmarker.minerFee
      rw [V2Transaction.framing,hmarker.inputs,hmarker.outputs,hfee]
      simp only [List.isEmpty_nil,if_true]
      split_ifs <;> omega
    have hproofs : txn.proofHashes = 0 := by
      rw [V2Transaction.proofHashes,hmarker.inputs]
      rfl
    omega
  · have hweight := htransfer.weight
    have hpos := List.length_pos_iff.mpr htransfer.inputs_ne
    omega

end Accepted

section BlockSize

def Block.encodeV1 (b : Block) : Bytes :=
  b.parentID.val ++ (encodeUint64 b.nonce ++ (b.timestamp.encode ++
    (encodeList SiacoinOutput.encodeV1 b.minerPayouts ++ encodeList Transaction.encode b.transactions)))

def V2BlockData.encode (c : Crypto) (v2 : V2BlockData) : Outcome Bytes := do
  let txns ← encodeMultiproof c v2.transactions
  return encodeUint64 v2.height ++ (v2.commitment.val ++ txns)

def Block.encodeV2 (c : Crypto) (b : Block) : Outcome Bytes :=
  match b.v2 with
  | none => .ok (b.encodeV1 ++ encodeBool false)
  | some v2 => do
      let data ← v2.encode c
      return b.encodeV1 ++ (encodeBool true ++ data)

/-- The hashes in the proofs of elements that are in the accumulator. -/
def assignedHashes (l : List (Hash256 × StateElement)) : ℕ :=
  ((l.filter fun p => p.2.leafIndex ≠ unassignedLeafIndex).map fun p => p.2.merkleProof.length).sum

theorem assignedHashes_append (l m : List (Hash256 × StateElement)) :
    assignedHashes (l ++ m) = assignedHashes l + assignedHashes m := by
  simp [assignedHashes]

theorem sum_forEachElementLeaf (txns : List V2Transaction) :
    ((forEachElementLeaf c txns).map fun l => l.merkleProof.length).sum = assignedHashes ((elementPlaces c).get txns) := by
  set L := (elementPlaces c).get txns with hL
  have hback : (L.mapIdx fun i p => (⟨i,p.2,p.1,false⟩ : ElementLeaf)).map (fun l => (l.elementHash, l.stateElement)) =
      L := by
    apply List.ext_getElem?
    intro i
    rw [List.getElem?_map,List.getElem?_mapIdx]
    cases L[i]? <;> rfl
  rw [forEachElementLeaf,← hL,assignedHashes]
  conv_rhs => rw [← hback]
  rw [List.filter_map,List.map_map]
  rfl

def clearProof (_ : ℕ) (se : StateElement) : StateElement :=
  if se.leafIndex = unassignedLeafIndex then se else { se with merkleProof := [] }

theorem sum_cleared (P : Places X Hash256 StateElement) (size : X → ℕ) {l : List X}
    (h : ∀ x ∈ l, ∀ s, size (P.update clearProof s x) + 32 * assignedHashes (P.get x) = size x) (s : ℕ) :
    ((P.updateList clearProof s l).map size).sum + 32 * assignedHashes (l.flatMap P.get) = (l.map size).sum := by
  induction l generalizing s with
  | nil => rfl
  | cons x l ih =>
    rw [List.forall_mem_cons] at h
    have hhead := h.1 s
    have hrest := ih h.2 (s + (P.get x).length)
    rw [Places.updateList,List.map_cons,List.sum_cons,List.flatMap_cons,assignedHashes_append,List.map_cons,
      List.sum_cons]
    omega

theorem input_cleared (sci : V2SiacoinInput) (s : ℕ) :
    ((siacoinInputPlaces c).update clearProof s sci).encode.length +
      32 * assignedHashes ((siacoinInputPlaces c).get sci) = sci.encode.length := by
  have hsame : ((siacoinInputPlaces c).update clearProof s sci).sansProof = sci.sansProof := by
    simp only [siacoinInputPlaces,Places.field,clearProof]
    split_ifs <;> rfl
  rw [V2SiacoinInput.length_encode,hsame,sci.length_encode]
  simp only [siacoinInputPlaces,Places.field,clearProof,assignedHashes]
  split_ifs with hephemeral
  · simp [hephemeral]
  · simp [hephemeral]

theorem isEmpty_updateList (P : Places X Hash256 StateElement) (f : ℕ → StateElement → StateElement) (s : ℕ)
    (l : List X) : (P.updateList f s l).isEmpty = l.isEmpty := by
  cases l <;> rfl

theorem transactionPlaces_get (h : qdayUnsupported txn = false) :
    (transactionPlaces c).get txn = txn.siacoinInputs.flatMap (siacoinInputPlaces c).get := by
  obtain ⟨hsfi,-,-,hrev,hres,-,-⟩ := V2Transaction.supported_iff.mp h
  simp [transactionPlaces,Places.within,Places.prod,Places.list,hsfi,hrev,hres]

theorem transaction_cleared (h : qdayUnsupported txn = false) (s : ℕ) :
    ((transactionPlaces c).update clearProof s txn).encode.length +
      32 * assignedHashes ((transactionPlaces c).get txn) = txn.encode.length := by
  obtain ⟨hsfi,-,-,hrev,hres,-,-⟩ := V2Transaction.supported_iff.mp h
  have hupdate : (transactionPlaces c).update clearProof s txn =
      { txn with siacoinInputs := (siacoinInputPlaces c).updateList clearProof s txn.siacoinInputs } := by
    simp [transactionPlaces,Places.within,Places.prod,Places.list,hsfi,hrev,hres,Places.updateList]
  have hinputs := sum_cleared (siacoinInputPlaces c) (fun sci => sci.encode.length)
    (fun sci (_ : sci ∈ txn.siacoinInputs) => input_cleared sci) s
  rw [transactionPlaces_get h,hupdate,V2Transaction.length_encode_parts h,V2Transaction.length_encode_parts (by exact h)]
  simp only [V2Transaction.framing,isEmpty_updateList]
  omega

theorem length_flatMap_hashes (hashes : List Hash256) : (hashes.flatMap Subtype.val).length = 32 * hashes.length := by
  induction hashes with
  | nil => rfl
  | cons hash hashes ih =>
    rw [List.flatMap_cons,List.length_append,ih,hash.property,List.length_cons]
    omega

/-- A list of coin transfers is written in no more bytes than its members on their own, as long
as no proof selects a tree beyond the 64th. -/
theorem encodeMultiproof_returns (txns : List V2Transaction) (hsupported : ∀ txn ∈ txns, qdayUnsupported txn = false)
    (hlen : ∀ l ∈ forEachElementLeaf c txns, l.merkleProof.length < 64) :
    ∃ b, encodeMultiproof c txns = .ok b ∧ b.length ≤ 16 + (txns.map fun txn => txn.encode.length).sum := by
  obtain ⟨hashes,hcompute,hle⟩ := computeMultiproof_returns hlen
  refine ⟨_,by rw [encodeMultiproof,hcompute,ok_bind]; rfl,?_⟩
  have hsaved := sum_cleared (transactionPlaces c) (fun txn => txn.encode.length)
    (fun txn htxn => transaction_cleared (hsupported txn htxn)) 0
  rw [sum_forEachElementLeaf] at hle
  have hproofless : (encodeList V2Transaction.encode (prooflessTxns c txns)).length =
      8 + (((transactionPlaces c).updateList clearProof 0 txns).map fun txn => txn.encode.length).sum := length_encodeList _ _
  have hget : (elementPlaces c).get txns = txns.flatMap (transactionPlaces c).get := rfl
  rw [List.length_append,List.length_append,length_encodeUint64,length_flatMap_hashes,hproofless]
  rw [hget] at hle
  omega

theorem Admitted.proof_lt (h : Admitted c ms txn)
    (hsci : sci ∈ txn.siacoinInputs) (hassigned : sci.parent.stateElement.leafIndex ≠ unassignedLeafIndex) :
    sci.parent.stateElement.merkleProof.length < 64 := ElementAccumulator.proof_lt (h.contains hsci hassigned)

theorem leaves_lt (h : ∀ txn ∈ txns, ∃ ms, Admitted c ms txn) :
    ∀ l ∈ forEachElementLeaf c txns, l.merkleProof.length < 64 := by
  intro l hl
  obtain ⟨p,hp,hl,hassigned⟩ := mem_forEachElementLeaf.mp hl
  obtain ⟨txn,htxn,hplace⟩ := List.mem_flatMap.mp (List.mem_of_getElem? hp)
  obtain ⟨ms,hadmitted⟩ := h txn htxn
  rw [transactionPlaces_get hadmitted.supported] at hplace
  obtain ⟨sci,hsci,hplace⟩ := List.mem_flatMap.mp hplace
  obtain rfl := List.mem_singleton.mp hplace
  rw [hl]
  exact hadmitted.proof_lt hsci hassigned

theorem length_encodeV1_le (v : Currency) : v.encodeV1.length ≤ 24 := by
  have hdigits := (List.dropWhile_sublist (fun x : UInt8 => decide (x = 0))
    (l := bigEndian 8 v.hi.toNat ++ bigEndian 8 v.lo.toNat)).length_le
  rw [Currency.encodeV1,length_encodeBytes]
  simp only [List.length_append,length_bigEndian] at hdigits
  omega

theorem ElementAccumulator.length_encode_le (acc : ElementAccumulator) : acc.encode.length ≤ 2056 := by
  have htrees : ((List.range 64).map fun i =>
      (if acc.hasTreeAtHeight i then (acc.trees i).val else []).length).sum ≤ 64 * 32 := by
    refine (List.sum_le_card_nsmul _ 32 (List.forall_mem_map.mpr fun i _ => ?_)).trans (by simp)
    split_ifs
    · exact (acc.trees i).property.le
    · exact Nat.zero_le _
  rw [ElementAccumulator.encode,List.length_append,length_encodeUint64,List.length_flatMap]
  omega

theorem State.length_encode_le (s : State) : s.encode.length ≤ 4000 := by
  have htimes : ((s.prevTimestamps.val.take s.numTimestamps).flatMap Time.encode).length ≤ 8 * 11 := by
    have hcount : (s.prevTimestamps.val.take s.numTimestamps).length ≤ 11 :=
      (List.length_take_le' _ _).trans s.prevTimestamps.property.le
    simp only [List.length_flatMap,Time.encode,length_encodeUint64,List.map_const',List.sum_replicate,smul_eq_mul]
    omega
  have helements := s.elements.length_encode_le
  simp only [State.encode,ChainIndex.encode,Currency.encodeV2,Work.encode,List.length_append,length_encodeUint64,
    length_bigEndian,FixedBytes.length_val]
  omega

/-- A transaction by its full hash, with or without its data. -/
structure OutlineTransaction where
  hash : Hash256
  transaction : Option Transaction
  v2Transaction : Option V2Transaction

/-- A block with some transactions omitted. -/
structure V2BlockOutline where
  height : UInt64
  parentID : BlockID
  nonce : UInt64
  timestamp : Time
  minerAddress : Address
  transactions : List OutlineTransaction

/-- `V2BlockOutline.RemoveTransactions`, of the transactions with the hashes in `remove`. -/
def OutlineTransaction.strip (remove : List Hash256) (ot : OutlineTransaction) : OutlineTransaction :=
  if ot.hash ∈ remove then ⟨ot.hash, none, none⟩ else ot

def outlineBlock (c : Crypto) (b : Block) (txns : List Transaction) (v2txns : List V2Transaction) :
    Outcome V2BlockOutline :=
  let otxns := b.transactions.map (fun txn => ⟨c.sum256 txn.merkleLeafPreimage, some txn, none⟩) ++
    b.v2Transactions.map (fun txn => ⟨c.sum256 txn.merkleLeafPreimage, none, some txn⟩)
  let remove := txns.map (fun txn => c.sum256 txn.merkleLeafPreimage) ++
    v2txns.map (fun txn => c.sum256 txn.merkleLeafPreimage)
  match b.v2, b.minerPayouts with
  | some v2, payout :: _ =>
    .ok ⟨v2.height, b.parentID, b.nonce, b.timestamp, payout.address, otxns.map (OutlineTransaction.strip remove)⟩
  | none, _ => crash "invalid memory address or nil pointer dereference"
  | some _, [] => crash "index out of range"

namespace OutlineTransaction

def kind (ot : OutlineTransaction) : UInt8 :=
  if ot.transaction.isSome then 0 else if ot.v2Transaction.isSome then 1 else 2

def carriedV2 (ot : OutlineTransaction) : Option V2Transaction := if ot.kind = 1 then ot.v2Transaction else none

def omitted (ot : OutlineTransaction) : Option Hash256 := if ot.kind = 2 then some ot.hash else none

end OutlineTransaction

def V2BlockOutline.encode (c : Crypto) (ob : V2BlockOutline) : Outcome Bytes := do
  let v2txns ← encodeMultiproof c (ob.transactions.filterMap OutlineTransaction.carriedV2)
  return encodeUint64 ob.height ++ (ob.parentID.val ++ (encodeUint64 ob.nonce ++ (ob.timestamp.encode ++
    (ob.minerAddress.val ++ (encodeList Transaction.encode (ob.transactions.filterMap OutlineTransaction.transaction) ++
    (v2txns ++ (encodeList Subtype.val (ob.transactions.filterMap OutlineTransaction.omitted) ++
    ob.transactions.map OutlineTransaction.kind)))))))

section Outline

def outlined (c : Crypto) (remove : List Hash256) (txn : V2Transaction) : OutlineTransaction :=
  OutlineTransaction.strip remove ⟨c.sum256 txn.merkleLeafPreimage, none, some txn⟩

theorem outlined_cases (remove : List Hash256) (txn : V2Transaction) :
    (outlined c remove txn).transaction = none ∧
      ((outlined c remove txn).carriedV2 = some txn ∧ (outlined c remove txn).omitted = none ∨
        (outlined c remove txn).carriedV2 = none ∧ ((outlined c remove txn).omitted).isSome = true) := by
  simp only [outlined,OutlineTransaction.strip]
  split_ifs
  · exact ⟨rfl,.inr ⟨rfl,rfl⟩⟩
  · exact ⟨rfl,.inl ⟨rfl,rfl⟩⟩

theorem sum_outlined (remove : List Hash256) (h : ∀ txn ∈ txns, 32 ≤ txn.encode.length) :
    (((txns.map (outlined c remove)).filterMap OutlineTransaction.carriedV2).map fun txn => txn.encode.length).sum +
      32 * ((txns.map (outlined c remove)).filterMap OutlineTransaction.omitted).length ≤
      (txns.map fun txn => txn.encode.length).sum := by
  induction txns with
  | nil => rfl
  | cons txn txns ih =>
    rw [List.forall_mem_cons] at h
    have hrest := ih h.2
    have hhead := h.1
    simp only [List.map_cons,List.sum_cons]
    rcases (outlined_cases (c := c) remove txn).2 with ⟨hcarried,homitted⟩ | ⟨hcarried,homitted⟩
    · rw [List.filterMap_cons_some hcarried,List.filterMap_cons_none homitted,List.map_cons,List.sum_cons]
      omega
    · obtain ⟨hash,homitted⟩ := Option.isSome_iff_exists.mp homitted
      rw [List.filterMap_cons_none hcarried,List.filterMap_cons_some homitted,List.length_cons]
      omega

theorem mem_carried {remove : List Hash256}
    (h : txn ∈ (txns.map (outlined c remove)).filterMap OutlineTransaction.carriedV2) : txn ∈ txns := by
  obtain ⟨ot,hot,hcarried⟩ := List.mem_filterMap.mp h
  obtain ⟨txn',htxn',rfl⟩ := List.mem_map.mp hot
  rcases (outlined_cases (c := c) remove txn').2 with ⟨hsome,-⟩ | ⟨hnone,-⟩
  · rw [hsome,Option.some_inj] at hcarried
    exact hcarried ▸ htxn'
  · rw [hnone] at hcarried
    exact absurd hcarried (Option.some_ne_none _).symm

end Outline

end BlockSize

section Blocks

variable {s : State} {b : Block} {bs : V1BlockSupplement}

theorem toNat_sum_ofNat (size : α → ℕ) (l : List α) :
    ((l.map fun a => UInt64.ofNat (size a)).sum).toNat = (l.map size).sum % 2^64 := by
  induction l with
  | nil => rfl
  | cons a l ih =>
    rw [List.map_cons,List.sum_cons,UInt64.toNat_add,ih,UInt64.toNat_ofNat',List.map_cons,List.sum_cons]
    omega

theorem BlockAccepted.sum_weighed (hb : BlockAccepted c s b bs)
    (hsmall : (b.v2Transactions.map fun txn => txn.weighed.length).sum < 2^64) :
    (b.v2Transactions.map fun txn => txn.weighed.length).sum ≤ 2000000 := by
  have hle := UInt64.le_iff_toNat_le.mp hb.weight_le
  have hsum := toNat_sum_ofNat (fun txn : V2Transaction => txn.weighed.length) b.v2Transactions
  rw [Nat.mod_eq_of_lt hsmall] at hsum
  rw [blockWeight,hb.transactions,List.map_nil,List.sum_nil,UInt64.zero_add] at hle
  have hmax : State.maxBlockWeight.toNat = 2000000 := rfl
  rw [hmax] at hle
  exact hsum ▸ hle

theorem BlockAccepted.sum_encode (hb : BlockAccepted c s b bs)
    (hsmall : (b.v2Transactions.map fun txn => txn.encode.length).sum < 2^64)
    (hallowed : ∀ txn ∈ b.v2Transactions, txn.WithinAllowance) :
    (b.v2Transactions.map fun txn => txn.encode.length).sum ≤ 4125000 := by
  have hweighed : ∀ txn ∈ b.v2Transactions, txn.weighed.length ≤ txn.encode.length := by
    intro txn htxn
    obtain ⟨ms,hadmitted⟩ := hb.mem_admitted htxn
    rw [V2Transaction.length_encode hadmitted.supported]
    omega
  have hbound := hb.sum_weighed ((List.sum_le_sum hweighed).trans_lt hsmall)
  have heach : (b.v2Transactions.map fun txn => 16 * txn.encode.length).sum ≤
      (b.v2Transactions.map fun txn => 33 * txn.weighed.length).sum := by
    refine List.sum_le_sum fun txn htxn => ?_
    obtain ⟨ms,hadmitted⟩ := hb.mem_admitted htxn
    exact hadmitted.encode_le (hallowed txn htxn)
  rw [List.sum_map_mul_left,List.sum_map_mul_left] at heach
  omega

theorem Admitted.encode_ge (h : Admitted c ms txn) : 32 ≤ txn.encode.length := by
  rw [V2Transaction.length_encode h.supported]
  rcases h with hmarker | htransfer
  · have hdata := hmarker.data_ge
    have hne : txn.arbitraryData.isEmpty = false := by
      rw [List.isEmpty_eq_false_iff,← List.length_pos_iff]
      omega
    have hframing : 17 ≤ txn.framing := by
      rw [V2Transaction.framing,hne]
      simp only [Bool.false_eq_true,if_false]
      omega
    have hweighed : txn.arbitraryData.length ≤ txn.weighed.length := by
      simp only [V2Transaction.weighed,List.length_append]
      omega
    omega
  · have hweight := htransfer.weight
    have hpos := List.length_pos_iff.mpr htransfer.inputs_ne
    omega

theorem BlockAccepted.encodeV2_le (hb : BlockAccepted c s b bs)
    (hsmall : (b.v2Transactions.map fun txn => txn.encode.length).sum < 2^64)
    (hallowed : ∀ txn ∈ b.v2Transactions, txn.WithinAllowance) :
    ∃ bytes, b.encodeV2 c = .ok bytes ∧ bytes.length ≤ 4126000 := by
  have hsum := hb.sum_encode hsmall hallowed
  obtain ⟨payout,hpayout,-⟩ := hb.payout
  obtain ⟨v2,hv2⟩ := Option.isSome_iff_exists.mp hb.hasV2
  have htxns : b.v2Transactions = v2.transactions := by rw [Block.v2Transactions,hv2]
  obtain ⟨data,hencode,hlen⟩ := encodeMultiproof_returns (c := c) v2.transactions
    (fun txn htxn => (hb.mem_admitted (htxns ▸ htxn)).elim fun _ h => h.supported)
    (leaves_lt fun txn htxn => hb.mem_admitted (htxns ▸ htxn))
  refine ⟨_,by simp only [Block.encodeV2,hv2,V2BlockData.encode,hencode,ok_bind]; rfl,?_⟩
  have hvalue := length_encodeV1_le payout.value
  rw [htxns] at hsum
  simp only [Block.encodeV1,hpayout,hb.transactions,List.length_append,FixedBytes.length_val,length_encodeUint64,
    Time.encode,length_encodeList,SiacoinOutput.encodeV1,List.map_cons,List.map_nil,List.sum_cons,List.sum_nil,
    encodeBool,List.length_cons,List.length_nil]
  omega

theorem BlockAccepted.outline_le (hb : BlockAccepted c s b bs)
    (hsmall : (b.v2Transactions.map fun txn => txn.encode.length).sum < 2^64)
    (hallowed : ∀ txn ∈ b.v2Transactions, txn.WithinAllowance) (txns : List Transaction) (v2txns : List V2Transaction) :
    ∃ ob bytes, outlineBlock c b txns v2txns = .ok ob ∧ ob.encode c = .ok bytes ∧ bytes.length ≤ 5000000 := by
  have hsum := hb.sum_encode hsmall hallowed
  obtain ⟨payout,hpayout,-⟩ := hb.payout
  obtain ⟨v2,hv2⟩ := Option.isSome_iff_exists.mp hb.hasV2
  set remove := txns.map (fun txn => c.sum256 txn.merkleLeafPreimage) ++
    v2txns.map (fun txn => c.sum256 txn.merkleLeafPreimage) with hremove
  have houtline : outlineBlock c b txns v2txns = .ok ⟨v2.height,b.parentID,b.nonce,b.timestamp,payout.address,
      b.v2Transactions.map (outlined c remove)⟩ := by
    simp only [outlineBlock,hv2,hpayout,hb.transactions,List.map_nil,List.nil_append,List.map_map]
    rfl
  have hlarge : ∀ txn ∈ b.v2Transactions, 32 ≤ txn.encode.length := fun txn htxn =>
    (hb.mem_admitted htxn).elim fun _ h => h.encode_ge
  have hcount : b.v2Transactions.length * 32 ≤ (b.v2Transactions.map fun txn => txn.encode.length).sum := by
    have hle := List.card_nsmul_le_sum (b.v2Transactions.map fun txn => txn.encode.length) 32
      (List.forall_mem_map.mpr hlarge)
    rwa [List.length_map,smul_eq_mul] at hle
  have hparts := sum_outlined (c := c) remove hlarge
  have hv1 : (b.v2Transactions.map (outlined c remove)).filterMap OutlineTransaction.transaction = [] := by
    refine List.filterMap_eq_nil_iff.mpr fun ot hot => ?_
    obtain ⟨txn,-,rfl⟩ := List.mem_map.mp hot
    exact (outlined_cases remove txn).1
  obtain ⟨data,hencode,hlen⟩ := encodeMultiproof_returns
    ((b.v2Transactions.map (outlined c remove)).filterMap OutlineTransaction.carriedV2)
    (fun txn htxn => (hb.mem_admitted (mem_carried htxn)).elim fun _ h => h.supported)
    (leaves_lt fun txn htxn => hb.mem_admitted (mem_carried htxn))
  refine ⟨_,_,houtline,by rw [V2BlockOutline.encode,hencode,ok_bind]; rfl,?_⟩
  simp only [hv1,List.length_append,FixedBytes.length_val,length_encodeUint64,Time.encode,length_encodeList,
    List.map_nil,List.sum_nil,List.length_map,List.map_const',List.sum_replicate,smul_eq_mul]
  omega

theorem TransferAccepted.length_encode_le_iff (h : TransferAccepted c ms txn)
    (hsmall : txn.encode.length < 2^64) :
    txn.encode.length ≤ (v2TransactionWeight txn).toNat + 2048 * txn.siacoinInputs.length + 128 ↔ txn.WithinAllowance := by
  rw [V2Transaction.length_encode h.supported] at hsmall ⊢
  have hweight : (v2TransactionWeight txn).toNat = txn.weighed.length := by
    rw [v2TransactionWeight,UInt64.toNat_ofNat']
    exact Nat.mod_eq_of_lt (by omega)
  rw [hweight,V2Transaction.WithinAllowance]
  omega

/-- An accepted transaction has the claimed size exactly if its proofs stay within the allowance,
as they do if no ephemeral input carries more than 64 hashes, and a valid block of such
transactions fits into every message that carries a block. -/
theorem encoding_bounded (c : Crypto) :
    (∀ ms txn, validateV2Transaction c ms txn = .ok () → txn.encode.length < 2^64 →
      (txn.encode.length ≤ (v2TransactionWeight txn).toNat + 2048 * txn.siacoinInputs.length + 128 ↔
        txn.WithinAllowance) ∧
      ((∀ sci ∈ txn.siacoinInputs, sci.parent.stateElement.leafIndex = unassignedLeafIndex →
        sci.parent.stateElement.merkleProof.length ≤ 64) → txn.WithinAllowance)) ∧
    (∀ s b bs, validateBlock c s b bs = .ok () → (b.v2Transactions.map fun txn => txn.encode.length).sum < 2^64 →
      (∀ txn ∈ b.v2Transactions, txn.WithinAllowance) →
      (∃ bytes, b.encodeV2 c = .ok bytes ∧ 8 + bytes.length + 8 ≤ 5000000 ∧
        ∀ s' : State, bytes.length + s'.encode.length ≤ 5000000 + 4000) ∧
      ∀ txns v2txns, ∃ ob bytes, outlineBlock c b txns v2txns = .ok ob ∧ ob.encode c = .ok bytes ∧
        bytes.length ≤ 5000000) := by
  refine ⟨fun ms txn hvalid hsmall => ?_,fun s b bs hvalid hsmall hallowed => ?_⟩
  · obtain ⟨-,haccepted⟩ := transfer_accepted hvalid
    refine ⟨haccepted.length_encode_le_iff hsmall,fun hshort => withinAllowance_of_short fun sci hsci => ?_⟩
    by_cases hephemeral : sci.parent.stateElement.leafIndex = unassignedLeafIndex
    · exact hshort sci hsci hephemeral
    · exact (Admitted.proof_lt (.inr haccepted) hsci hephemeral).le
  · have hb := block_accepted hvalid
    obtain ⟨bytes,hencode,hle⟩ := hb.encodeV2_le hsmall hallowed
    refine ⟨⟨bytes,hencode,by omega,fun s' => ?_⟩,hb.outline_le hsmall hallowed⟩
    have := s'.length_encode_le
    omega

theorem encoding_bounded_sample :
    ∃ ch b, sampleManifest.chain sampleCrypto = .ok ch ∧ sampleBlock [] = .ok b ∧
      sampleTransfer.encode.length ≤
        (v2TransactionWeight sampleTransfer).toNat + 2048 * sampleTransfer.siacoinInputs.length + 128 ∧
      ∃ bytes, b.encodeV2 sampleCrypto = .ok bytes ∧ 8 + bytes.length + 8 ≤ 5000000 := by
  obtain ⟨⟨ch,b⟩,hrun,hholds⟩ := exists_of_holds
    (x := do
      let ch ← sampleManifest.chain sampleCrypto
      let b ← sampleBlock []
      return (ch, b))
    (p := fun r => decide (validateV2Transaction sampleCrypto (newMidState r.1.state) sampleTransfer = .ok () ∧
      validateBlock sampleCrypto r.1.state r.2 ⟨[],[]⟩ = .ok () ∧
      (r.2.v2Transactions.map fun txn => txn.encode.length).sum < 2^64 ∧
      ∀ txn ∈ r.2.v2Transactions, ∀ sci ∈ txn.siacoinInputs, sci.parent.stateElement.merkleProof.length ≤ 64))
    (by decide +kernel)
  obtain ⟨hfirst,hvalid,hsmall,hshort⟩ := of_decide_eq_true hholds
  simp only [bind_eq_ok,pure_eq_ok,Prod.mk.injEq] at hrun
  obtain ⟨ch',hchain,b',hblock,rfl,rfl⟩ := hrun
  obtain ⟨hsize,hallowed⟩ := (encoding_bounded sampleCrypto).1 _ _ hfirst (by decide +kernel)
  obtain ⟨⟨bytes,hencode,hle,-⟩,-⟩ := (encoding_bounded sampleCrypto).2 _ _ _ hvalid hsmall
    fun txn htxn => withinAllowance_of_short (hshort txn htxn)
  exact ⟨ch',b',hchain,hblock,hsize.mpr (hallowed (by decide +kernel)),bytes,hencode,hle⟩

/-- The second transfer of the sample block passes validation with 70 hashes that nobody reads. -/
theorem encoding_unbounded :
    ∃ ch ms, sampleManifest.chain sampleCrypto = .ok ch ∧
      validateV2Transaction sampleCrypto (newMidState ch.state) sampleTransfer = .ok () ∧
      (newMidState ch.state).applyV2Transaction sampleCrypto sampleTransfer = .ok ms ∧
      validateV2Transaction sampleCrypto ms (sampleChild (List.replicate 70 default)) = .ok () ∧
      (v2TransactionWeight (sampleChild (List.replicate 70 default))).toNat + 2048 * 1 + 128 <
        (sampleChild (List.replicate 70 default)).encode.length := by
  obtain ⟨⟨ch,ms⟩,hrun,hholds⟩ := exists_of_holds
    (x := do
      let ch ← sampleManifest.chain sampleCrypto
      let ms ← (newMidState ch.state).applyV2Transaction sampleCrypto sampleTransfer
      return (ch, ms))
    (p := fun r => decide (validateV2Transaction sampleCrypto (newMidState r.1.state) sampleTransfer = .ok () ∧
      validateV2Transaction sampleCrypto r.2 (sampleChild (List.replicate 70 default)) = .ok ()))
    (by decide +kernel)
  obtain ⟨hfirst,hsecond⟩ := of_decide_eq_true hholds
  simp only [bind_eq_ok,pure_eq_ok,Prod.mk.injEq] at hrun
  obtain ⟨ch',hchain,ms',happly,rfl,rfl⟩ := hrun
  refine ⟨ch',ms',hchain,hfirst,happly,hsecond,?_⟩
  have hweight := Nat.mod_le (sampleChild (List.replicate 70 default)).weighed.length (2^64)
  have hproofs : (sampleChild (List.replicate 70 default)).proofHashes = 70 := by decide +kernel
  rw [v2TransactionWeight,UInt64.toNat_ofNat',V2Transaction.length_encode (by decide +kernel),hproofs]
  omega

end Blocks

end QdayNode
