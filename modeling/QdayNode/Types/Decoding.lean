import QdayNode.Library.Codec
import QdayNode.Types.Transaction

/-!
# Decoding v2 transactions

The `DecodeFrom` methods of `types/encoding.go` that a v2 transaction needs.  Go's
decoder keeps its first error and reads zeros from then on; the value it ends with is
discarded, so an error ends the run here.  Every method gets back what the matching
`EncodeTo` wrote, except that the wire has whole seconds only, a byte for the number
of sub-policies of a threshold, and a limit on how deep policies nest.
-/
namespace QdayNode
open ByteString Decoder

def Time.decode : Decoder Time := do
  let sec ← readUint64
  return Time.ofUnix sec.toInt64

def Currency.decodeV2 : Decoder Currency := do
  let lo ← readUint64
  let hi ← readUint64
  return ⟨lo, hi⟩

def UnlockKey.decode : Decoder UnlockKey := do
  let algorithm ← readFixed 16
  let key ← readBytes
  return ⟨algorithm, key⟩

def UnlockConditions.decode : Decoder UnlockConditions := do
  let timelock ← readUint64
  let publicKeys ← readList UnlockKey.decode
  let signaturesRequired ← readUint64
  return ⟨timelock, publicKeys, signaturesRequired⟩

namespace SpendPolicy

def maxPolicyDepth : ℕ := 32

/-- `readPolicy(depth)`; the first argument is `maxPolicyDepth + 1 - depth`. -/
def readPolicy : ℕ → Decoder SpendPolicy
  | 0 => fail "policy exceeds maximum nesting depth of 32"
  | levels+1 => do
      let op ← readUint8
      match op.toNat with
      | 1 =>
        let height ← readUint64
        return .above height
      | 2 =>
        let t ← Time.decode
        return .after t
      | 3 =>
        let pk ← readFixed 32
        return .publicKey pk
      | 8 =>
        let pk ← readFixed 32
        return .slhdsa pk
      | 4 =>
        let h ← readFixed 32
        return .hash h
      | 5 =>
        let n ← readUint8
        let count ← readUint8
        let subpolicies ← readCount (readPolicy levels) count.toNat
        return .threshold n subpolicies
      | 6 =>
        let a ← readFixed 32
        return .opaqueHash a
      | 7 =>
        let uc ← UnlockConditions.decode
        return .unlockConditions uc
      | _ => fail "unknown policy"

def decode : Decoder SpendPolicy := do
  let version ← readUint8
  if version ≠ 1 then fail "unsupported policy version (1)" else readPolicy (maxPolicyDepth + 1)

end SpendPolicy

def SatisfiedPolicy.decode : Decoder SatisfiedPolicy := do
  let policy ← SpendPolicy.decode
  let signatures ← readList (readFixed 64)
  let preimages ← readList (readFixed 32)
  return ⟨policy, signatures, preimages⟩

def StateElement.decode : Decoder StateElement := do
  let leafIndex ← readUint64
  let merkleProof ← readList (readFixed 32)
  return ⟨leafIndex, merkleProof⟩

def ChainIndex.decode : Decoder ChainIndex := do
  let height ← readUint64
  let id ← readFixed 32
  return ⟨height, id⟩

def SiacoinOutput.decodeV2 : Decoder SiacoinOutput := do
  let value ← Currency.decodeV2
  let address ← readFixed 32
  return ⟨value, address⟩

def SiafundOutput.decodeV2 : Decoder SiafundOutput := do
  let value ← readUint64
  let address ← readFixed 32
  return ⟨value, address⟩

def ChainIndexElement.decode : Decoder ChainIndexElement := do
  let stateElement ← StateElement.decode
  let id ← readFixed 32
  let chainIndex ← ChainIndex.decode
  return ⟨id, stateElement, chainIndex⟩

def SiacoinElement.decode : Decoder SiacoinElement := do
  let stateElement ← StateElement.decode
  let id ← readFixed 32
  let siacoinOutput ← SiacoinOutput.decodeV2
  let maturityHeight ← readUint64
  return ⟨id, stateElement, siacoinOutput, maturityHeight⟩

def SiafundElement.decode : Decoder SiafundElement := do
  let stateElement ← StateElement.decode
  let id ← readFixed 32
  let siafundOutput ← SiafundOutput.decodeV2
  let claimStart ← Currency.decodeV2
  return ⟨id, stateElement, siafundOutput, claimStart⟩

def V2FileContract.decode : Decoder V2FileContract := do
  let capacity ← readUint64
  let filesize ← readUint64
  let fileMerkleRoot ← readFixed 32
  let proofHeight ← readUint64
  let expirationHeight ← readUint64
  let renterOutput ← SiacoinOutput.decodeV2
  let hostOutput ← SiacoinOutput.decodeV2
  let missedHostValue ← Currency.decodeV2
  let totalCollateral ← Currency.decodeV2
  let renterPublicKey ← readFixed 32
  let hostPublicKey ← readFixed 32
  let revisionNumber ← readUint64
  let renterSignature ← readFixed 64
  let hostSignature ← readFixed 64
  return ⟨capacity, filesize, fileMerkleRoot, proofHeight, expirationHeight, renterOutput, hostOutput,
    missedHostValue, totalCollateral, renterPublicKey, hostPublicKey, revisionNumber, renterSignature, hostSignature⟩

def V2FileContractElement.decode : Decoder V2FileContractElement := do
  let stateElement ← StateElement.decode
  let id ← readFixed 32
  let v2FileContract ← V2FileContract.decode
  return ⟨id, stateElement, v2FileContract⟩

def V2SiacoinInput.decode : Decoder V2SiacoinInput := do
  let parent ← SiacoinElement.decode
  let satisfiedPolicy ← SatisfiedPolicy.decode
  return ⟨parent, satisfiedPolicy⟩

def V2SiafundInput.decode : Decoder V2SiafundInput := do
  let parent ← SiafundElement.decode
  let claimAddress ← readFixed 32
  let satisfiedPolicy ← SatisfiedPolicy.decode
  return ⟨parent, claimAddress, satisfiedPolicy⟩

def V2FileContractRevision.decode : Decoder V2FileContractRevision := do
  let parent ← V2FileContractElement.decode
  let revision ← V2FileContract.decode
  return ⟨parent, revision⟩

def V2FileContractRenewal.decode : Decoder V2FileContractRenewal := do
  let finalRenterOutput ← SiacoinOutput.decodeV2
  let finalHostOutput ← SiacoinOutput.decodeV2
  let renterRollover ← Currency.decodeV2
  let hostRollover ← Currency.decodeV2
  let newContract ← V2FileContract.decode
  let renterSignature ← readFixed 64
  let hostSignature ← readFixed 64
  return ⟨finalRenterOutput, finalHostOutput, renterRollover, hostRollover, newContract, renterSignature, hostSignature⟩

def V2StorageProof.decode : Decoder V2StorageProof := do
  let proofIndex ← ChainIndexElement.decode
  let leaf ← readFixed 64
  let proof ← readList (readFixed 32)
  return ⟨proofIndex, leaf, proof⟩

def V2FileContractResolution.decode : Decoder V2FileContractResolution := do
  let parent ← V2FileContractElement.decode
  let t ← readUint8
  match t.toNat with
  | 0 =>
    let r ← V2FileContractRenewal.decode
    return ⟨parent, .renewal r⟩
  | 1 =>
    let sp ← V2StorageProof.decode
    return ⟨parent, .storageProof sp⟩
  | 2 => return ⟨parent, .expiration⟩
  | _ => fail "unknown resolution type"

def Attestation.decode : Decoder Attestation := do
  let publicKey ← readFixed 32
  let key ← readBytes
  let value ← readBytes
  let signature ← readFixed 64
  return ⟨publicKey, key, value, signature⟩

def V2Transaction.decode : Decoder V2Transaction := do
  let version ← readUint8
  if version ≠ 2 then fail "unsupported transaction version"
  else
    let fields ← readUint64
    let bit (i : ℕ) : Bool := fields.toNat.testBit i
    let siacoinInputs ← readIf (bit 0) [] (readList V2SiacoinInput.decode)
    let siacoinOutputs ← readIf (bit 1) [] (readList SiacoinOutput.decodeV2)
    let siafundInputs ← readIf (bit 2) [] (readList V2SiafundInput.decode)
    let siafundOutputs ← readIf (bit 3) [] (readList SiafundOutput.decodeV2)
    let fileContracts ← readIf (bit 4) [] (readList V2FileContract.decode)
    let fileContractRevisions ← readIf (bit 5) [] (readList V2FileContractRevision.decode)
    let fileContractResolutions ← readIf (bit 6) [] (readList V2FileContractResolution.decode)
    let attestations ← readIf (bit 7) [] (readList Attestation.decode)
    let arbitraryData ← readIf (bit 8) [] readBytes
    let newFoundationAddress ← readIf (bit 9) none (some <$> readFixed 32)
    let minerFee ← readIf (bit 10) Currency.zeroCurrency Currency.decodeV2
    return ⟨siacoinInputs, siacoinOutputs, siafundInputs, siafundOutputs, fileContracts, fileContractRevisions,
      fileContractResolutions, attestations, arbitraryData, newFoundationAddress, minerFee⟩

section Safe

instance safe_time : Safe Time.decode := by
  unfold Time.decode
  infer_instance

instance safe_currency : Safe Currency.decodeV2 := by
  unfold Currency.decodeV2
  infer_instance

instance safe_unlockKey : Safe UnlockKey.decode := by
  unfold UnlockKey.decode
  infer_instance

instance safe_unlockConditions : Safe UnlockConditions.decode := by
  unfold UnlockConditions.decode
  infer_instance

instance safe_readPolicy (levels : ℕ) : Safe (SpendPolicy.readPolicy levels) := by
  induction levels with
  | zero => exact safe_fail _
  | succ levels ih =>
    unfold SpendPolicy.readPolicy
    refine @safe_bind _ _ _ _ safe_readUint8 fun op => ?_
    split <;> infer_instance

instance safe_spendPolicy : Safe SpendPolicy.decode := by
  unfold SpendPolicy.decode
  infer_instance

instance safe_satisfiedPolicy : Safe SatisfiedPolicy.decode := by
  unfold SatisfiedPolicy.decode
  infer_instance

instance safe_stateElement : Safe StateElement.decode := by
  unfold StateElement.decode
  infer_instance

instance safe_chainIndex : Safe ChainIndex.decode := by
  unfold ChainIndex.decode
  infer_instance

instance safe_siacoinOutput : Safe SiacoinOutput.decodeV2 := by
  unfold SiacoinOutput.decodeV2
  infer_instance

instance safe_siafundOutput : Safe SiafundOutput.decodeV2 := by
  unfold SiafundOutput.decodeV2
  infer_instance

instance safe_chainIndexElement : Safe ChainIndexElement.decode := by
  unfold ChainIndexElement.decode
  infer_instance

instance safe_siacoinElement : Safe SiacoinElement.decode := by
  unfold SiacoinElement.decode
  infer_instance

instance safe_siafundElement : Safe SiafundElement.decode := by
  unfold SiafundElement.decode
  infer_instance

instance safe_v2FileContract : Safe V2FileContract.decode := by
  unfold V2FileContract.decode
  infer_instance

instance safe_v2FileContractElement : Safe V2FileContractElement.decode := by
  unfold V2FileContractElement.decode
  infer_instance

instance safe_v2SiacoinInput : Safe V2SiacoinInput.decode := by
  unfold V2SiacoinInput.decode
  infer_instance

instance safe_v2SiafundInput : Safe V2SiafundInput.decode := by
  unfold V2SiafundInput.decode
  infer_instance

instance safe_v2FileContractRevision : Safe V2FileContractRevision.decode := by
  unfold V2FileContractRevision.decode
  infer_instance

instance safe_v2FileContractRenewal : Safe V2FileContractRenewal.decode := by
  unfold V2FileContractRenewal.decode
  infer_instance

instance safe_v2StorageProof : Safe V2StorageProof.decode := by
  unfold V2StorageProof.decode
  infer_instance

instance safe_v2FileContractResolution : Safe V2FileContractResolution.decode := by
  unfold V2FileContractResolution.decode
  refine @safe_bind _ _ _ _ safe_v2FileContractElement fun parent => @safe_bind _ _ _ _ safe_readUint8 fun t => ?_
  split <;> infer_instance

instance safe_attestation : Safe Attestation.decode := by
  unfold Attestation.decode
  infer_instance

set_option synthInstance.maxSize 256 in
instance safe_v2Transaction : Safe V2Transaction.decode := by
  unfold V2Transaction.decode
  dsimp only
  infer_instance

end Safe

section RoundTrip

@[simp] theorem run_time {t : Time} (ht : t.WholeSecond) (r : Bytes) :
    Time.decode.run (t.encode ++ r) = .ok (t, r) := by
  have hback : Time.ofUnix t.unix.toUInt64.toInt64 = t := by
    obtain ⟨sec,nsec⟩ := t
    obtain rfl : nsec = 0 := ht
    simp [Time.ofUnix,Time.unix]
  simp only [Time.decode,Time.encode,run_bind,run_readUint64,Outcome.ok_bind,hback,run_pure]

@[simp] theorem run_currency (v : Currency) (r : Bytes) : Currency.decodeV2.run (v.encodeV2 ++ r) = .ok (v, r) := by
  simp [Currency.decodeV2,Currency.encodeV2]

@[simp] theorem run_chainIndex (index : ChainIndex) (r : Bytes) :
    ChainIndex.decode.run (index.encode ++ r) = .ok (index, r) := by
  simp [ChainIndex.decode,ChainIndex.encode]

@[simp] theorem run_siacoinOutput (sco : SiacoinOutput) (r : Bytes) :
    SiacoinOutput.decodeV2.run (sco.encodeV2 ++ r) = .ok (sco, r) := by
  simp [SiacoinOutput.decodeV2,SiacoinOutput.encodeV2]

@[simp] theorem run_siafundOutput (sfo : SiafundOutput) (r : Bytes) :
    SiafundOutput.decodeV2.run (sfo.encodeV2 ++ r) = .ok (sfo, r) := by
  simp [SiafundOutput.decodeV2,SiafundOutput.encodeV2]

@[simp] theorem run_v2FileContract (fc : V2FileContract) (r : Bytes) :
    V2FileContract.decode.run (fc.encode ++ r) = .ok (fc, r) := by
  simp [V2FileContract.decode,V2FileContract.encode]

@[simp] theorem run_renewal (ren : V2FileContractRenewal) (r : Bytes) :
    V2FileContractRenewal.decode.run (ren.encode ++ r) = .ok (ren, r) := by
  simp [V2FileContractRenewal.decode,V2FileContractRenewal.encode]

theorem reads_unlockKey : Reads (fun _ => True) UnlockKey.encode UnlockKey.decode := by
  intro uk r _ hlen
  simp only [UnlockKey.encode,List.length_append] at hlen
  have hkey := run_readBytes (b := uk.key) (by omega) r
  simp [UnlockKey.decode,UnlockKey.encode,hkey]

theorem reads_unlockConditions : Reads (fun _ => True) UnlockConditions.encode UnlockConditions.decode := by
  intro uc r _ hlen
  simp only [UnlockConditions.encode,List.length_append] at hlen
  have hkeys := reads_unlockKey.list (fun uk => by simp [UnlockKey.encode]) uc.publicKeys
    (encodeUint64 uc.signaturesRequired ++ r) (fun _ _ => trivial) (by omega)
  simp [UnlockConditions.decode,UnlockConditions.encode,hkeys]

namespace SpendPolicy

/-- What the wire can carry of a policy nested at most `levels` deep. -/
def OnWire : ℕ → SpendPolicy → Prop
  | 0, _ => False
  | levels+1, p =>
    match p with
    | .after t => t.WholeSecond
    | .threshold _ subpolicies => subpolicies.length < 256 ∧ ∀ q ∈ subpolicies, OnWire levels q
    | _ => True

instance decidableOnWire : (levels : ℕ) → (p : SpendPolicy) → Decidable (OnWire levels p)
  | 0, _ => inferInstanceAs (Decidable False)
  | _+1, .after t => inferInstanceAs (Decidable (t.nsec = 0))
  | levels+1, .threshold _ subpolicies =>
    have := decidableOnWire levels
    inferInstanceAs (Decidable (subpolicies.length < 256 ∧ ∀ q ∈ subpolicies, OnWire levels q))
  | _+1, .above _ | _+1, .publicKey _ | _+1, .slhdsa _ | _+1, .hash _ | _+1, .opaqueHash _ | _+1, .unlockConditions _ =>
    inferInstanceAs (Decidable True)

theorem encodePolicies_eq_flatMap (ps : List SpendPolicy) : encodePolicies ps = ps.flatMap encodePolicy := by
  induction ps with
  | nil => rfl
  | cons p ps ih => rw [encodePolicies,ih,List.flatMap_cons]

theorem reads_policy (levels : ℕ) : Reads (OnWire levels) encodePolicy (readPolicy levels) := by
  induction levels with
  | zero => exact fun p r hp _ => absurd hp (by simp [OnWire])
  | succ levels ih =>
    intro p r hp hlen
    cases p with
    | above height => simp [readPolicy,encodePolicy]
    | after t => simp [readPolicy,encodePolicy,run_time (t := t) hp]
    | publicKey pk => simp [readPolicy,encodePolicy]
    | slhdsa pk => simp [readPolicy,encodePolicy]
    | hash h => simp [readPolicy,encodePolicy]
    | opaqueHash a => simp [readPolicy,encodePolicy]
    | unlockConditions uc =>
      simp only [encodePolicy,List.length_cons] at hlen
      have huc := reads_unlockConditions uc r trivial (by omega)
      simp [readPolicy,encodePolicy,huc]
    | threshold n subpolicies =>
      obtain ⟨hcount,hsub⟩ := hp
      simp only [encodePolicy,encodePolicies_eq_flatMap,List.length_cons] at hlen
      have hbyte : (UInt8.ofNat subpolicies.length).toNat = subpolicies.length := by
        rw [UInt8.toNat_ofNat',Nat.mod_eq_of_lt hcount]
      have hread := ih.readCount hsub (by omega) r
      simp [readPolicy,encodePolicy,encodePolicies_eq_flatMap,hbyte,hread]

theorem reads_spendPolicy : Reads (OnWire (maxPolicyDepth + 1)) encode decode := by
  intro p r hp hlen
  rw [encode,List.length_cons] at hlen
  have hread := reads_policy _ p r hp (by omega)
  simp [decode,encode,hread]

end SpendPolicy

theorem reads_satisfiedPolicy :
    Reads (fun sp => sp.policy.OnWire (SpendPolicy.maxPolicyDepth + 1)) SatisfiedPolicy.encode SatisfiedPolicy.decode := by
  intro sp r hp hlen
  simp only [SatisfiedPolicy.encode,List.length_append] at hlen
  have hpolicy := SpendPolicy.reads_spendPolicy sp.policy
    (encodeList Subtype.val sp.signatures ++ (encodeList Subtype.val sp.preimages ++ r)) hp (by omega)
  have hsigs := run_readList_fixed (by omega : 0 < 64) (l := sp.signatures) (by omega)
    (encodeList Subtype.val sp.preimages ++ r)
  have hpre := run_readList_fixed (by omega : 0 < 32) (l := sp.preimages) (by omega) r
  simp [SatisfiedPolicy.decode,SatisfiedPolicy.encode,hpolicy,hsigs,hpre]

theorem reads_stateElement : Reads (fun _ => True) StateElement.encode StateElement.decode := by
  intro se r _ hlen
  simp only [StateElement.encode,List.length_append] at hlen
  have hproof := run_readList_fixed (by omega : 0 < 32) (l := se.merkleProof) (by omega) r
  simp [StateElement.decode,StateElement.encode,hproof]

theorem reads_chainIndexElement : Reads (fun _ => True) ChainIndexElement.encode ChainIndexElement.decode := by
  intro cie r _ hlen
  simp only [ChainIndexElement.encode,List.length_append] at hlen
  have hse := reads_stateElement cie.stateElement (cie.id.val ++ (cie.chainIndex.encode ++ r)) trivial (by omega)
  simp [ChainIndexElement.decode,ChainIndexElement.encode,hse]

theorem reads_siacoinElement : Reads (fun _ => True) SiacoinElement.encode SiacoinElement.decode := by
  intro sce r _ hlen
  simp only [SiacoinElement.encode,List.length_append] at hlen
  have hse := reads_stateElement sce.stateElement
    (sce.id.val ++ (sce.siacoinOutput.encodeV2 ++ (encodeUint64 sce.maturityHeight ++ r))) trivial (by omega)
  simp [SiacoinElement.decode,SiacoinElement.encode,hse]

theorem reads_siafundElement : Reads (fun _ => True) SiafundElement.encode SiafundElement.decode := by
  intro sfe r _ hlen
  simp only [SiafundElement.encode,List.length_append] at hlen
  have hse := reads_stateElement sfe.stateElement
    (sfe.id.val ++ (sfe.siafundOutput.encodeV2 ++ (sfe.claimStart.encodeV2 ++ r))) trivial (by omega)
  simp [SiafundElement.decode,SiafundElement.encode,hse]

theorem reads_v2FileContractElement :
    Reads (fun _ => True) V2FileContractElement.encode V2FileContractElement.decode := by
  intro fce r _ hlen
  simp only [V2FileContractElement.encode,List.length_append] at hlen
  have hse := reads_stateElement fce.stateElement (fce.id.val ++ (fce.v2FileContract.encode ++ r)) trivial (by omega)
  simp [V2FileContractElement.decode,V2FileContractElement.encode,hse]

theorem reads_v2SiacoinInput :
    Reads (fun sci => sci.satisfiedPolicy.policy.OnWire (SpendPolicy.maxPolicyDepth + 1)) V2SiacoinInput.encode
      V2SiacoinInput.decode := by
  intro sci r hp hlen
  simp only [V2SiacoinInput.encode,List.length_append] at hlen
  have hparent := reads_siacoinElement sci.parent (sci.satisfiedPolicy.encode ++ r) trivial (by omega)
  have hpolicy := reads_satisfiedPolicy sci.satisfiedPolicy r hp (by omega)
  simp [V2SiacoinInput.decode,V2SiacoinInput.encode,hparent,hpolicy]

theorem reads_v2SiafundInput :
    Reads (fun sfi => sfi.satisfiedPolicy.policy.OnWire (SpendPolicy.maxPolicyDepth + 1)) V2SiafundInput.encode
      V2SiafundInput.decode := by
  intro sfi r hp hlen
  simp only [V2SiafundInput.encode,List.length_append] at hlen
  have hparent := reads_siafundElement sfi.parent (sfi.claimAddress.val ++ (sfi.satisfiedPolicy.encode ++ r)) trivial
    (by omega)
  have hpolicy := reads_satisfiedPolicy sfi.satisfiedPolicy r hp (by omega)
  simp [V2SiafundInput.decode,V2SiafundInput.encode,hparent,hpolicy]

theorem reads_v2FileContractRevision :
    Reads (fun _ => True) V2FileContractRevision.encode V2FileContractRevision.decode := by
  intro fcr r _ hlen
  simp only [V2FileContractRevision.encode,List.length_append] at hlen
  have hparent := reads_v2FileContractElement fcr.parent (fcr.revision.encode ++ r) trivial (by omega)
  simp [V2FileContractRevision.decode,V2FileContractRevision.encode,hparent]

theorem reads_v2StorageProof : Reads (fun _ => True) V2StorageProof.encode V2StorageProof.decode := by
  intro sp r _ hlen
  simp only [V2StorageProof.encode,List.length_append] at hlen
  have hindex := reads_chainIndexElement sp.proofIndex (sp.leaf.val ++ (encodeList Subtype.val sp.proof ++ r)) trivial
    (by omega)
  have hproof := run_readList_fixed (by omega : 0 < 32) (l := sp.proof) (by omega) r
  simp [V2StorageProof.decode,V2StorageProof.encode,hindex,hproof]

theorem reads_v2FileContractResolution :
    Reads (fun _ => True) V2FileContractResolution.encode V2FileContractResolution.decode := by
  rintro ⟨parent,resolution⟩ r _ hlen
  simp only [V2FileContractResolution.encode,List.length_append,List.length_cons] at hlen
  have hparent := reads_v2FileContractElement parent (resolution.tag :: (resolution.encode ++ r)) trivial (by omega)
  cases resolution with
  | renewal ren =>
    simp only [V2FileContractResolutionType.tag,V2FileContractResolutionType.encode] at hparent
    simp [V2FileContractResolution.decode,V2FileContractResolution.encode,V2FileContractResolutionType.tag,
      V2FileContractResolutionType.encode,hparent]
  | storageProof sp =>
    simp only [V2FileContractResolutionType.tag,V2FileContractResolutionType.encode] at hparent hlen
    have hsp := reads_v2StorageProof sp r trivial (by omega)
    simp [V2FileContractResolution.decode,V2FileContractResolution.encode,V2FileContractResolutionType.tag,
      V2FileContractResolutionType.encode,hparent,hsp]
  | expiration =>
    simp only [V2FileContractResolutionType.tag,V2FileContractResolutionType.encode,List.nil_append] at hparent
    simp [V2FileContractResolution.decode,V2FileContractResolution.encode,V2FileContractResolutionType.tag,
      V2FileContractResolutionType.encode,hparent]

theorem reads_attestation : Reads (fun _ => True) Attestation.encode Attestation.decode := by
  intro a r _ hlen
  simp only [Attestation.encode,List.length_append] at hlen
  have hkey := run_readBytes (b := a.key) (by omega) (encodeBytes a.value ++ (a.signature.val ++ r))
  have hvalue := run_readBytes (b := a.value) (by omega) (a.signature.val ++ r)
  simp [Attestation.decode,Attestation.encode,hkey,hvalue]

namespace V2Transaction

theorem fieldBits_lt (l : List Bool) : fieldBits l < 2^l.length := by
  induction l with
  | nil => simp [fieldBits]
  | cons b l ih =>
    rw [fieldBits,List.length_cons,pow_succ]
    split_ifs <;> omega

theorem testBit_fieldBits (l : List Bool) (i : ℕ) : (fieldBits l).testBit i = l.getD i false := by
  induction l generalizing i with
  | nil => simp [fieldBits]
  | cons b l ih =>
    cases i with
    | zero =>
      rw [Nat.testBit_zero,fieldBits]
      cases b <;> simp [Nat.add_mod]
    | succ i =>
      have hhalf : ((if b = true then 1 else 0) + 2 * fieldBits l) / 2 = fieldBits l := by split_ifs <;> omega
      rw [Nat.testBit_succ,fieldBits,hhalf,ih,List.getD_cons_succ]

theorem testBit_fields (txn : V2Transaction) (i : ℕ) :
    (UInt64.ofNat (fieldBits txn.presence)).toNat.testBit i = txn.presence.getD i false := by
  have hlt : fieldBits txn.presence < 2^64 := (fieldBits_lt txn.presence).trans (by simp [presence])
  rw [UInt64.toNat_ofNat',Nat.mod_eq_of_lt hlt,testBit_fieldBits]

/-- What the wire can carry of a transaction. -/
structure OnWire (txn : V2Transaction) : Prop where
  siacoinInputs : ∀ sci ∈ txn.siacoinInputs, sci.satisfiedPolicy.policy.OnWire (SpendPolicy.maxPolicyDepth + 1)
  siafundInputs : ∀ sfi ∈ txn.siafundInputs, sfi.satisfiedPolicy.policy.OnWire (SpendPolicy.maxPolicyDepth + 1)

instance (txn : V2Transaction) : Decidable txn.OnWire :=
  decidable_of_iff ((∀ sci ∈ txn.siacoinInputs, sci.satisfiedPolicy.policy.OnWire (SpendPolicy.maxPolicyDepth + 1)) ∧
    ∀ sfi ∈ txn.siafundInputs, sfi.satisfiedPolicy.policy.OnWire (SpendPolicy.maxPolicyDepth + 1))
    ⟨fun h => ⟨h.1, h.2⟩, fun h => ⟨h.siacoinInputs, h.siafundInputs⟩⟩

theorem run_listField {α : Type} {P : α → Prop} {enc : α → Bytes} {dec : Decoder α} (h : Reads P enc dec)
    (hpos : ∀ a, 0 < (enc a).length) {l : List α} (hl : ∀ a ∈ l, P a)
    (hlen : (encodeField (!l.isEmpty) (encodeList enc l)).length < 2^64) (r : Bytes) :
    (readIf (!l.isEmpty) [] (readList dec)).run (encodeField (!l.isEmpty) (encodeList enc l) ++ r) = .ok (l, r) :=
  run_readIf (h.list hpos) [] (!l.isEmpty) (fun _ => hl) (fun hempty => by simpa using hempty) hlen r

theorem run_dataField {b : Bytes} (hlen : (encodeField (!b.isEmpty) (encodeBytes b)).length < 2^64) (r : Bytes) :
    (readIf (!b.isEmpty) [] readBytes).run (encodeField (!b.isEmpty) (encodeBytes b) ++ r) = .ok (b, r) :=
  run_readIf (P := fun _ => True) (fun _ r _ hb => run_readBytes hb r) [] (!b.isEmpty) (fun _ => trivial)
    (fun hempty => by simpa using hempty) hlen r

theorem run_addressField (o : Option Address) (r : Bytes) :
    (readIf o.isSome none (some <$> readFixed 32)).run (encodeField o.isSome (o.getD default).val ++ r) = .ok (o, r) := by
  cases o with
  | none => rfl
  | some a =>
    have hread := run_readFixed a r
    simp only [readIf,encodeField,Option.isSome_some,Option.getD_some,if_true]
    change (readFixed 32).run (a.val ++ r) >>= _ = _
    rw [hread]
    rfl

theorem run_feeField (v : Currency) (r : Bytes) :
    (readIf (!v.isZero) Currency.zeroCurrency Currency.decodeV2).run (encodeField (!v.isZero) v.encodeV2 ++ r) =
      .ok (v, r) := by
  cases hzero : v.isZero with
  | true =>
    obtain rfl : v = Currency.zeroCurrency := of_decide_eq_true hzero
    rfl
  | false => exact run_currency v r

theorem reads_v2Transaction : Reads OnWire encode decode := by
  intro txn r hwire hlen
  simp only [encode,List.length_cons,List.length_append] at hlen
  have hsci := run_listField reads_v2SiacoinInput
    (fun sci => by simp [V2SiacoinInput.encode,SiacoinElement.encode,StateElement.encode])
    hwire.siacoinInputs (by omega)
  have hsco := run_listField (P := fun _ => True) (fun sco r _ _ => run_siacoinOutput sco r)
    (fun sco => by simp [SiacoinOutput.encodeV2]) (l := txn.siacoinOutputs) (fun _ _ => trivial) (by omega)
  have hsfi := run_listField reads_v2SiafundInput (fun sfi => by simp [V2SiafundInput.encode])
    hwire.siafundInputs (by omega)
  have hsfo := run_listField (P := fun _ => True) (fun sfo r _ _ => run_siafundOutput sfo r)
    (fun sfo => by simp [SiafundOutput.encodeV2]) (l := txn.siafundOutputs) (fun _ _ => trivial) (by omega)
  have hfc := run_listField (P := fun _ => True) (fun fc r _ _ => run_v2FileContract fc r)
    (fun fc => by simp [V2FileContract.encode]) (l := txn.fileContracts) (fun _ _ => trivial) (by omega)
  have hrev := run_listField reads_v2FileContractRevision
    (fun fcr => by simp [V2FileContractRevision.encode,V2FileContract.encode]) (l := txn.fileContractRevisions)
    (fun _ _ => trivial) (by omega)
  have hres := run_listField reads_v2FileContractResolution (fun fcr => by simp [V2FileContractResolution.encode])
    (l := txn.fileContractResolutions) (fun _ _ => trivial) (by omega)
  have hatt := run_listField reads_attestation (fun a => by simp [Attestation.encode]) (l := txn.attestations)
    (fun _ _ => trivial) (by omega)
  have hdata := run_dataField (b := txn.arbitraryData) (by omega)
  simp only [decode,encode,run_bind,run_readUint8,run_readUint64,Outcome.ok_bind,List.cons_append,
    List.append_assoc,ne_eq,not_true_eq_false,if_false,testBit_fields]
  simp only [presence,List.getD_cons_zero,List.getD_cons_succ,hsci,hsco,hsfi,hsfo,hfc,hrev,hres,hatt,hdata,
    run_addressField,run_feeField,Outcome.ok_bind,run_pure]

/-- The decoder gets back a transaction and stops where it ended, so no encoding begins another. -/
theorem encode_decode {txn : V2Transaction} (hwire : txn.OnWire) (hlen : txn.encode.length < 2^64) :
    (∀ r, decode.run (txn.encode ++ r) = .ok (txn, r)) ∧
      ∀ txn' : V2Transaction, txn'.OnWire → txn'.encode.length < 2^64 →
        ∀ r r', txn.encode ++ r = txn'.encode ++ r' → txn = txn' ∧ r = r' :=
  ⟨fun r => reads_v2Transaction txn r hwire hlen,
    fun _ hwire' hlen' _ _ heq => reads_v2Transaction.prefixCodeOn ⟨hwire,hlen⟩ ⟨hwire',hlen'⟩ heq⟩

def sampleWithdrawal : V2Transaction where
  siacoinInputs := [⟨⟨default, ⟨5, [default, default]⟩, ⟨⟨9, 0⟩, default⟩, 3⟩,
    ⟨.threshold 1 [.after (Time.ofUnix 7), .threshold 0 [.hash default, .above 4]], [default], [default]⟩⟩]
  siacoinOutputs := [⟨⟨7, 0⟩, default⟩]
  arbitraryData := [1, 2, 3]
  newFoundationAddress := some default
  minerFee := ⟨2, 0⟩

theorem encode_decode_sample :
    decode.run (sampleWithdrawal.encode ++ [9]) = .ok (sampleWithdrawal, [9]) ∧
      ∀ r, sampleWithdrawal.encode ≠ ({} : V2Transaction).encode ++ r := by
  have hwire : sampleWithdrawal.OnWire := by decide +kernel
  have hlen : sampleWithdrawal.encode.length < 2^64 := by decide +kernel
  obtain ⟨hread,hcode⟩ := encode_decode hwire hlen
  refine ⟨hread [9],fun r heq => ?_⟩
  have hsame := (hcode {} (by decide +kernel) (by decide +kernel) [] r (by rwa [List.append_nil])).1
  have hfee := congrArg V2Transaction.minerFee hsame
  exact absurd hfee (by decide)

end V2Transaction

end RoundTrip

end QdayNode
