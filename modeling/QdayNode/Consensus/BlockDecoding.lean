import QdayNode.Consensus.Commitment
import QdayNode.Consensus.Revert

/-!
# Decoding blocks

The `DecodeFrom` methods of `types/encoding.go` for headers and blocks, with those of the
v1 transactions that a block may carry.  A block from the wire has a time in whole
seconds, so without collisions its ID determines its header, and on the state of its
parent a valid block is determined by its header.
-/
namespace QdayNode
open ByteString Decoder
open Outcome hiding fail

variable {v2 : V2BlockData}

def readBool : Decoder Bool := do
  let b ← readUint8
  match b.toNat with
  | 0 => return false
  | 1 => return true
  | _ => fail "invalid bool value"

def readOption {α : Type} (dec : Decoder α) : Decoder (Option α) := do
  let present ← readBool
  if present then some <$> dec else return none

def Currency.decodeV1 : Decoder Currency := do
  let n ← readUint64
  if n > 16 then fail "Currency too large"
  else
    let b ← readFixed n.toNat
    let x := ofBigEndian b.val
    return ⟨UInt64.ofNat x, UInt64.ofNat (x / 2^64)⟩

def SiacoinOutput.decodeV1 : Decoder SiacoinOutput := do
  let value ← Currency.decodeV1
  let address ← readFixed 32
  return ⟨value, address⟩

def SiafundOutput.decodeV1 : Decoder SiafundOutput := do
  let value ← Currency.decodeV1
  if value.hi ≠ 0 then fail "value overflows siafund representation"
  else
    let address ← readFixed 32
    let _ ← Currency.decodeV1
    return ⟨value.lo, address⟩

def SiacoinInput.decode : Decoder SiacoinInput := do
  let parentID ← readFixed 32
  let unlockConditions ← UnlockConditions.decode
  return ⟨parentID, unlockConditions⟩

def SiafundInput.decode : Decoder SiafundInput := do
  let parentID ← readFixed 32
  let unlockConditions ← UnlockConditions.decode
  let claimAddress ← readFixed 32
  return ⟨parentID, unlockConditions, claimAddress⟩

def FileContract.decode : Decoder FileContract := do
  let filesize ← readUint64
  let fileMerkleRoot ← readFixed 32
  let windowStart ← readUint64
  let windowEnd ← readUint64
  let payout ← Currency.decodeV1
  let validProofOutputs ← readList SiacoinOutput.decodeV1
  let missedProofOutputs ← readList SiacoinOutput.decodeV1
  let unlockHash ← readFixed 32
  let revisionNumber ← readUint64
  return ⟨filesize, fileMerkleRoot, windowStart, windowEnd, payout, validProofOutputs, missedProofOutputs, unlockHash,
    revisionNumber⟩

def FileContractRevision.decode : Decoder FileContractRevision := do
  let parentID ← readFixed 32
  let unlockConditions ← UnlockConditions.decode
  let revisionNumber ← readUint64
  let filesize ← readUint64
  let fileMerkleRoot ← readFixed 32
  let windowStart ← readUint64
  let windowEnd ← readUint64
  let validProofOutputs ← readList SiacoinOutput.decodeV1
  let missedProofOutputs ← readList SiacoinOutput.decodeV1
  let unlockHash ← readFixed 32
  -- a revision has no payout of its own
  let payout : Currency := ⟨0 - 1, 0 - 1⟩
  return ⟨parentID, unlockConditions, ⟨filesize, fileMerkleRoot, windowStart, windowEnd, payout, validProofOutputs,
    missedProofOutputs, unlockHash, revisionNumber⟩⟩

def StorageProof.decode : Decoder StorageProof := do
  let parentID ← readFixed 32
  let leaf ← readFixed 64
  let proof ← readList (readFixed 32)
  return ⟨parentID, leaf, proof⟩

def CoveredFields.decode : Decoder CoveredFields := do
  let wholeTransaction ← readBool
  let siacoinInputs ← readList readUint64
  let siacoinOutputs ← readList readUint64
  let fileContracts ← readList readUint64
  let fileContractRevisions ← readList readUint64
  let storageProofs ← readList readUint64
  let siafundInputs ← readList readUint64
  let siafundOutputs ← readList readUint64
  let minerFees ← readList readUint64
  let arbitraryData ← readList readUint64
  let signatures ← readList readUint64
  return ⟨wholeTransaction, siacoinInputs, siacoinOutputs, fileContracts, fileContractRevisions, storageProofs,
    siafundInputs, siafundOutputs, minerFees, arbitraryData, signatures⟩

def TransactionSignature.decode : Decoder TransactionSignature := do
  let parentID ← readFixed 32
  let publicKeyIndex ← readUint64
  let timelock ← readUint64
  let coveredFields ← CoveredFields.decode
  let signature ← readBytes
  return ⟨parentID, publicKeyIndex, timelock, coveredFields, signature⟩

def Transaction.decode : Decoder Transaction := do
  let siacoinInputs ← readList SiacoinInput.decode
  let siacoinOutputs ← readList SiacoinOutput.decodeV1
  let fileContracts ← readList FileContract.decode
  let fileContractRevisions ← readList FileContractRevision.decode
  let storageProofs ← readList StorageProof.decode
  let siafundInputs ← readList SiafundInput.decode
  let siafundOutputs ← readList SiafundOutput.decodeV1
  let minerFees ← readList Currency.decodeV1
  let arbitraryData ← readList readBytes
  let signatures ← readList TransactionSignature.decode
  return ⟨siacoinInputs, siacoinOutputs, fileContracts, fileContractRevisions, storageProofs, siafundInputs,
    siafundOutputs, minerFees, arbitraryData, signatures⟩

def BlockHeader.decode : Decoder BlockHeader := do
  let parentID ← readFixed 32
  let nonce ← readUint64
  let timestamp ← Time.decode
  let commitment ← readFixed 32
  return ⟨parentID, nonce, timestamp, commitment⟩

section Blocks

variable (c : Crypto)

def V2BlockData.decode : Decoder V2BlockData := do
  let height ← readUint64
  let commitment ← readFixed 32
  let transactions ← decodeMultiproof c
  return ⟨height, commitment, transactions⟩

def Block.decode : Decoder Block := do
  let parentID ← readFixed 32
  let nonce ← readUint64
  let timestamp ← Time.decode
  let minerPayouts ← readList SiacoinOutput.decodeV1
  let transactions ← readList Transaction.decode
  let v2 ← readOption (V2BlockData.decode c)
  return ⟨parentID, nonce, timestamp, minerPayouts, transactions, v2⟩

def Block.Decoded (b : Block) : Prop := ∃ stream rest, (Block.decode c).run stream = .ok (b, rest)

variable {c} {b b' : Block}

theorem time_decoded {stream rest : Bytes} {t : Time} (h : Time.decode.run stream = .ok (t, rest)) : t.WholeSecond := by
  simp only [Time.decode,run_bind,run_pure,bind_eq_ok,Except.ok.injEq,Prod.mk.injEq] at h
  obtain ⟨_,-,rfl,-⟩ := h
  rfl

theorem Block.Decoded.wholeSecond (h : b.Decoded c) : b.timestamp.WholeSecond := by
  obtain ⟨stream,rest,h⟩ := h
  simp only [Block.decode,run_bind,run_pure,bind_eq_ok,Except.ok.injEq,Prod.mk.injEq] at h
  obtain ⟨_,-,_,-,⟨t,_⟩,ht,_,-,_,-,_,-,rfl,-⟩ := h
  exact time_decoded ht

section OnWire

theorem yields_time : Yields Time.WholeSecond Time.decode := fun _ _ _ h => time_decoded h

theorem yields_policy (levels : ℕ) : Yields (SpendPolicy.OnWire levels) (SpendPolicy.readPolicy levels) := by
  induction levels with
  | zero => exact yields_fail _
  | succ levels ih =>
    refine yields_bind fun op => ?_
    split
    · exact yields_bind fun _ => yields_pure trivial
    · exact yields_time.bind fun t ht => yields_pure ht
    · exact yields_bind fun _ => yields_pure trivial
    · exact yields_bind fun _ => yields_pure trivial
    · exact yields_bind fun _ => yields_pure trivial
    · refine yields_bind fun n => yields_bind fun count => (ih.readCount count.toNat).bind fun ps hps => yields_pure ?_
      exact ⟨hps.1 ▸ count.toNat_lt,hps.2⟩
    · exact yields_bind fun _ => yields_pure trivial
    · exact yields_bind fun _ => yields_pure trivial
    · exact yields_fail _

theorem yields_satisfiedPolicy : Yields (fun sp => sp.policy.OnWire (SpendPolicy.maxPolicyDepth + 1)) SatisfiedPolicy.decode := by
  have hpolicy : Yields (SpendPolicy.OnWire (SpendPolicy.maxPolicyDepth + 1)) SpendPolicy.decode := by
    refine yields_bind fun version => ?_
    split_ifs
    · exact yields_fail _
    · exact yields_policy _
  exact hpolicy.bind fun p hp => yields_bind fun _ => yields_bind fun _ => yields_pure hp

theorem yields_v2Transaction : Yields V2Transaction.OnWire V2Transaction.decode := by
  have hsci : Yields (fun sci : V2SiacoinInput => sci.satisfiedPolicy.policy.OnWire (SpendPolicy.maxPolicyDepth + 1))
      V2SiacoinInput.decode :=
    yields_bind fun _ => yields_satisfiedPolicy.bind fun sp hsp => yields_pure hsp
  have hsfi : Yields (fun sfi : V2SiafundInput => sfi.satisfiedPolicy.policy.OnWire (SpendPolicy.maxPolicyDepth + 1))
      V2SiafundInput.decode :=
    yields_bind fun _ => yields_bind fun _ => yields_satisfiedPolicy.bind fun sp hsp => yields_pure hsp
  refine yields_bind fun version => ?_
  split_ifs
  · exact yields_fail _
  · refine yields_bind fun fields => ?_
    refine (hsci.readList.readIf (fun _ h => absurd h List.not_mem_nil) _).bind fun scis hscis => ?_
    refine yields_bind fun _ => ?_
    refine (hsfi.readList.readIf (fun _ h => absurd h List.not_mem_nil) _).bind fun sfis hsfis => ?_
    refine yields_bind fun _ => yields_bind fun _ => yields_bind fun _ => yields_bind fun _ => yields_bind fun _ => ?_
    exact yields_bind fun _ => yields_bind fun _ => yields_bind fun _ => yields_pure ⟨hscis,hsfis⟩

theorem yields_multiproof : Yields (fun txns : List V2Transaction => ∀ txn ∈ txns, txn.OnWire) (decodeMultiproof c) := by
  refine yields_v2Transaction.readList.bind fun txns htxns => yields_bind fun numLeaves => ?_
  split_ifs
  · exact yields_fail _
  · refine yields_bind fun _ => yields_bind fun hashes => yields_call fun filled hfilled => ?_
    obtain ⟨_,-,hfilled⟩ := bind_eq_ok.mp hfilled
    obtain rfl := pure_eq_ok.mp hfilled
    exact onWire_update (onWire_update htxns _ 0) _ 0

theorem Block.Decoded.transactions {P : List V2Transaction → Prop} (hP : Yields P (decodeMultiproof c)) (h : b.Decoded c)
    (hv2 : b.v2 = some v2) : P v2.transactions := by
  have hdata : Yields (fun v2 : V2BlockData => P v2.transactions) (V2BlockData.decode c) :=
    yields_bind fun _ => yields_bind fun _ => hP.bind fun txns htxns => yields_pure htxns
  have hoption : Yields (fun v2 : Option V2BlockData => ∀ v ∈ v2, P v.transactions)
      (readOption (V2BlockData.decode c)) := by
    refine yields_bind fun present => ?_
    split_ifs
    · rw [map_eq_pure_bind]
      exact hdata.bind fun v hv => yields_pure fun v' hv' => Option.some.inj hv' ▸ hv
    · exact yields_pure fun v hv => by cases hv
  have hblock : Yields (fun b : Block => ∀ v ∈ b.v2, P v.transactions) (Block.decode c) := by
    refine yields_bind fun _ => yields_bind fun _ => yields_bind fun _ => yields_bind fun _ => yields_bind fun _ => ?_
    exact hoption.bind fun v2 hv2 => yields_pure hv2
  obtain ⟨stream,rest,h⟩ := h
  exact hblock stream b rest h v2 hv2

theorem Block.Decoded.onWire (h : b.Decoded c) : ∀ txn ∈ b.v2Transactions, txn.OnWire := by
  intro txn htxn
  rw [Block.v2Transactions] at htxn
  cases hv2 : b.v2 with
  | none =>
    rw [hv2] at htxn
    cases htxn
  | some v2 =>
    rw [hv2] at htxn
    exact h.transactions yields_multiproof hv2 txn htxn

end OnWire

theorem ofBigEndian_append (a b : Bytes) : ofBigEndian (a ++ b) = ofBigEndian a * 256^b.length + ofBigEndian b := by
  have hlittle : ∀ x y : Bytes, ofLittleEndian (x ++ y) = ofLittleEndian x + 256^x.length * ofLittleEndian y := by
    intro x y
    induction x with
    | nil => simp [ofLittleEndian]
    | cons d x ih =>
      rw [List.cons_append,ofLittleEndian,ih,ofLittleEndian,List.length_cons,pow_succ']
      ring
  rw [ofBigEndian,List.reverse_append,hlittle,List.length_reverse,ofBigEndian,ofBigEndian]
  ring

theorem ofBigEndian_dropWhile (b : Bytes) : ofBigEndian (b.dropWhile (· = 0)) = ofBigEndian b := by
  induction b with
  | nil => rfl
  | cons d b ih =>
    rw [List.dropWhile_cons]
    split_ifs with hd
    · obtain rfl : d = 0 := of_decide_eq_true hd
      rw [ih,← List.singleton_append,ofBigEndian_append]
      simp [ofBigEndian,ofLittleEndian]
    · rfl

theorem ofBigEndian_bigEndian (k x : ℕ) : ofBigEndian (bigEndian k x) = x % 256^k := by
  rw [ofBigEndian,bigEndian,List.reverse_reverse,ofLittleEndian_littleEndian]

theorem run_currencyV1 (v : Currency) (r : Bytes) : Currency.decodeV1.run (v.encodeV1 ++ r) = .ok (v, r) := by
  set digits := bigEndian 8 v.hi.toNat ++ bigEndian 8 v.lo.toNat with hdigits
  have hlen : (digits.dropWhile (· = 0)).length ≤ 16 := by
    refine le_trans (List.IsSuffix.length_le (List.dropWhile_suffix _)) ?_
    simp [hdigits]
  have hword : (UInt64.ofNat (digits.dropWhile (· = 0)).length).toNat = (digits.dropWhile (· = 0)).length := by
    rw [UInt64.toNat_ofNat',Nat.mod_eq_of_lt (by omega)]
  have hsmall : ¬ UInt64.ofNat (digits.dropWhile (· = 0)).length > 16 := by
    rw [gt_iff_lt,UInt64.lt_iff_toNat_lt,hword]
    exact not_lt.mpr hlen
  have hvalue : ofBigEndian (digits.dropWhile (· = 0)) = v.hi.toNat * 2^64 + v.lo.toNat := by
    have hhi := v.hi.toNat_lt
    have hlo := v.lo.toNat_lt
    rw [ofBigEndian_dropWhile,hdigits,ofBigEndian_append,length_bigEndian,ofBigEndian_bigEndian,
      ofBigEndian_bigEndian,Nat.mod_eq_of_lt (by omega),Nat.mod_eq_of_lt (by omega)]
    rfl
  have hback : (⟨UInt64.ofNat (v.hi.toNat * 2^64 + v.lo.toNat),
      UInt64.ofNat ((v.hi.toNat * 2^64 + v.lo.toNat) / 2^64)⟩ : Currency) = v := by
    have hlo := v.lo.toNat_lt
    have hdiv : (v.hi.toNat * 2^64 + v.lo.toNat) / 2^64 = v.hi.toNat := by omega
    have hmod : UInt64.ofNat (v.hi.toNat * 2^64 + v.lo.toNat) = v.lo := by
      apply UInt64.toNat_inj.mp
      rw [UInt64.toNat_ofNat']
      omega
    rw [hmod,hdiv,UInt64.ofNat_toNat]
  have hread := run_readFixed ⟨digits.dropWhile (· = 0),hword.symm⟩ r
  simp only [Currency.decodeV1,Currency.encodeV1,← hdigits,encodeBytes,List.append_assoc,run_bind,
    run_readUint64,ok_bind,hsmall,if_false,hread,hvalue,hback,run_pure]

theorem run_payouts {l : List SiacoinOutput} (hlen : (encodeList SiacoinOutput.encodeV1 l).length < 2^64) (r : Bytes) :
    (readList SiacoinOutput.decodeV1).run (encodeList SiacoinOutput.encodeV1 l ++ r) = .ok (l, r) := by
  have hreads : Reads (fun _ => True) SiacoinOutput.encodeV1 SiacoinOutput.decodeV1 := fun sco r _ _ => by
    simp [SiacoinOutput.decodeV1,SiacoinOutput.encodeV1,run_currencyV1]
  exact hreads.list (fun sco => by simp [SiacoinOutput.encodeV1]) l r (fun _ _ => trivial) hlen

theorem run_noTransactions (r : Bytes) :
    (readList Transaction.decode).run (encodeList Transaction.encode [] ++ r) = .ok ([], r) := by
  have hcount : readLength.run (encodeUint64 (UInt64.ofNat 0) ++ r) = .ok (0, r) :=
    run_readLength (by decide) (Nat.zero_le _)
  simp only [encodeList,List.length_nil,List.flatMap_nil,List.append_nil,readList,run_bind,hcount,
    ok_bind,readCount,run_pure]

theorem run_readSome {α : Type} {dec : Decoder α} {a : α} {data r : Bytes} (h : dec.run (data ++ r) = .ok (a, r)) :
    (readOption dec).run (encodeBool true ++ (data ++ r)) = .ok (some a, r) := by
  change dec.run (data ++ r) >>= _ = _
  rw [h]
  rfl

/-- A block without v1 transactions is read back if its multiproof is. -/
theorem run_block {proved : Bytes} (hv2 : b.v2 = some v2) (htxns : b.transactions = [])
    (hwhole : b.timestamp.WholeSecond) (hlen : (encodeList SiacoinOutput.encodeV1 b.minerPayouts).length < 2^64)
    (hproved : encodeMultiproof c v2.transactions = .ok proved)
    (hread : ∀ r, (decodeMultiproof c).run (proved ++ r) = .ok (v2.transactions, r)) :
    ∃ stream, b.encodeV2 c = .ok stream ∧ ∀ r, (Block.decode c).run (stream ++ r) = .ok (b, r) := by
  have hdata : v2.encode c = .ok (encodeUint64 v2.height ++ (v2.commitment.val ++ proved)) := by
    rw [V2BlockData.encode,hproved]
    rfl
  have hencode : b.encodeV2 c = .ok (b.encodeV1 ++ (encodeBool true ++
      (encodeUint64 v2.height ++ (v2.commitment.val ++ proved)))) := by
    simp only [Block.encodeV2,hv2,hdata,ok_bind]
    rfl
  refine ⟨_,hencode,fun r => ?_⟩
  have hreadData : (V2BlockData.decode c).run ((encodeUint64 v2.height ++ (v2.commitment.val ++ proved)) ++ r) =
      .ok (v2, r) := by
    simp only [V2BlockData.decode,List.append_assoc,run_bind,run_readUint64,run_readFixed,hread,ok_bind,
      run_pure]
  simp only [Block.decode,Block.encodeV1,htxns,List.append_assoc,run_bind,run_readFixed,run_readUint64,
    run_time hwhole,run_payouts hlen,run_noTransactions,ok_bind]
  rw [← List.append_assoc v2.commitment.val,← List.append_assoc (encodeUint64 v2.height),run_readSome hreadData,
    ok_bind,run_pure,← hv2,← htxns]

variable {S : Set Bytes} {s : State} {bs bs' : V1BlockSupplement}

/-- On one state an ID belongs to one valid block. -/
theorem block_of_id (hinj : Set.InjOn c.sum256 S) (h : validateBlock c s b bs = .ok ())
    (h' : validateBlock c s b' bs' = .ok ()) (hdecoded : b.Decoded c) (hdecoded' : b'.Decoded c) (hfits : b.Fits)
    (hfits' : b'.Fits) (hS : ∀ x ∈ (b.header c).preimage :: b.commitmentStrings c s, x ∈ S)
    (hS' : ∀ x ∈ (b'.header c).preimage :: b'.commitmentStrings c s, x ∈ S) (hid : b.id c = b'.id c) : b = b' := by
  rw [List.forall_mem_cons] at hS hS'
  have hheader : b.header c = b'.header c :=
    header_eq_of_id hinj hS.1 hS'.1 hdecoded.wholeSecond hdecoded'.wholeSecond hid
  exact block_unique hinj h h' hfits hfits' hS.2 hS'.2 hheader

/-- The block that `CandidateWithNonce` builds without transfers can be sent. -/
theorem emptyCandidate_decoded {miner : QdayKeys} {timestamp : Time} {markerNonce : UInt64}
    (hv1 : s.qdayV1Active s.childHeight = false) (hb : candidateWithNonce c s miner [] timestamp markerNonce = .ok b)
    (hlen : (encodeList V2Transaction.encode [coinbaseMarker miner markerNonce]).length < 2^63)
    (hpayouts : (encodeList SiacoinOutput.encodeV1 [⟨s.blockReward, miner.policy.address c⟩]).length < 2^64) :
    b.Decoded c := by
  obtain rfl := emptyCandidate_eq hv1 hb
  set marker := coinbaseMarker miner markerNonce with hmarker
  have hwire : ∀ txn ∈ [marker], txn.OnWire := by
    intro txn htxn
    obtain rfl := List.mem_singleton.mp htxn
    exact ⟨fun _ h => absurd h List.not_mem_nil,fun _ h => absurd h List.not_mem_nil⟩
  have hleaves : Consistent c 0 (forEachElementLeaf c [marker]) := consistent_nil
  have hproved : encodeMultiproof c [marker] =
      .ok (encodeList V2Transaction.encode [marker] ++ (encodeUint64 0 ++ [])) := rfl
  obtain ⟨-,proved,-,hproved',-,hread⟩ := hleaves.run_multiproof hwire
    fun b hb => by
      obtain rfl := Except.ok.inj (hproved.symm.trans hb)
      simp only [List.length_append,length_encodeUint64,List.length_nil]
      omega
  obtain ⟨stream,-,hstream⟩ := run_block (c := c) (b := ⟨s.index.id,0,⟨timestamp.sec,0⟩,
    [⟨s.blockReward,miner.policy.address c⟩],[],some ⟨s.index.height + 1,
      s.commitment c (miner.policy.address c) [] [marker],[marker]⟩⟩) rfl rfl (by exact rfl) hpayouts hproved' hread
  exact ⟨stream ++ [],[],hstream []⟩

theorem block_of_id_sample : ∃ b b', b.Decoded sampleCrypto ∧ b'.Decoded sampleCrypto ∧
    validateBlock sampleCrypto (sampleState ⟨fun _ => default, 0⟩) b {} = .ok () ∧
    validateBlock sampleCrypto (sampleState ⟨fun _ => default, 0⟩) b' {} = .ok () ∧
    b.id sampleCrypto = b'.id sampleCrypto ∧ b = b' := by
  set s := sampleState ⟨fun _ => default,0⟩ with hs
  obtain ⟨b,hb,hcheck⟩ := exists_of_holds (x := candidateWithNonce sampleCrypto s sampleKeys [] sampleTime 0)
    (p := fun b => decide ((((b.header sampleCrypto).preimage :: b.commitmentStrings sampleCrypto s).dedup.map
      sampleCrypto.sum256).Nodup ∧ b.v2Transactions.length < 2^63 ∧ ∀ txn ∈ b.v2Transactions, txn.encode.length < 2^64))
    (by decide +kernel)
  obtain ⟨hnodup,hcount,hsizes⟩ := of_decide_eq_true hcheck
  obtain ⟨b',hb',-,hvalid⟩ := sampleBlock_valid ⟨fun _ => default,0⟩
  obtain rfl := Except.ok.inj (hb'.symm.trans hb)
  have hdecoded : b'.Decoded sampleCrypto := emptyCandidate_decoded rfl hb' (by decide +kernel) (by decide +kernel)
  exact ⟨b',b',hdecoded,hdecoded,hvalid,hvalid,rfl,block_of_id (injOn_of_nodup hnodup) hvalid hvalid hdecoded hdecoded
    ⟨hcount,hsizes⟩ ⟨hcount,hsizes⟩ (fun x hx => hx) (fun x hx => hx) rfl⟩

end Blocks

end QdayNode
