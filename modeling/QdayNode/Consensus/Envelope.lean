import QdayNode.Consensus.Qday

/-!
# The envelope in the arbitrary data

An envelope has a header of sixteen bytes, the keys one after the other and, for a canary
proof only, the witness.  `ParseQdayEnvelope` compares the length of the whole with the
number of keys in the header, so a text is accepted in one reading only.
-/
namespace QdayNode
open ByteString Outcome

variable {n i : ℕ}

section Encoded

theorem slice_append {pre mid : Bytes} (hpre : pre.length = i) (hmid : mid.length = n) (post : Bytes) :
    (slice n i (pre ++ (mid ++ post))).val = mid := by
  rw [slice]
  simp only
  rw [List.drop_left' hpre,List.take_left' hmid,List.take_left' hmid]

theorem parseQdayKeys_encode (keys : List QdayKeys) (hvalid : ∀ k ∈ keys, k.validate = .ok ()) {pre : Bytes}
    (hpre : pre.length = 16 + 64*i) (post : Bytes) :
    parseQdayKeys (pre ++ (keys.flatMap QdayKeys.bytes ++ post)) keys.length i = .ok keys := by
  induction keys generalizing pre i with
  | nil => rfl
  | cons k keys ih =>
    rw [List.forall_mem_cons] at hvalid
    have hclassical : slice 32 (16 + 64*i) (pre ++ ((k :: keys).flatMap QdayKeys.bytes ++ post)) = k.classical := by
      refine Subtype.ext ?_
      rw [List.flatMap_cons,QdayKeys.bytes,List.append_assoc,List.append_assoc]
      exact slice_append hpre k.classical.property _
    have hreserve : slice 32 (48 + 64*i) (pre ++ ((k :: keys).flatMap QdayKeys.bytes ++ post)) = k.reserve := by
      refine Subtype.ext ?_
      rw [List.flatMap_cons,QdayKeys.bytes,List.append_assoc,List.append_assoc,← List.append_assoc pre]
      refine slice_append ?_ k.reserve.property _
      rw [List.length_append,hpre,k.classical.property]
      omega
    have hrest : parseQdayKeys (pre ++ ((k :: keys).flatMap QdayKeys.bytes ++ post)) keys.length (i+1) = .ok keys := by
      rw [List.flatMap_cons,List.append_assoc,← List.append_assoc pre]
      refine ih hvalid.2 ?_
      rw [List.length_append,hpre,QdayKeys.bytes,List.length_append,k.classical.property,k.reserve.property]
      omega
    rw [List.length_cons,parseQdayKeys,hclassical,hreserve,hvalid.1,ok_bind,hrest]
    rfl

namespace QdayEnvelope

variable (e : QdayEnvelope)

def header : Bytes := qdayMagic ++ e.kind :: (encodeUint64 e.nonce ++ littleEndian 2 e.keys.length)

def proof : Bytes := if e.kind = qdayCanaryProof then e.witness.val else []

theorem encode_eq : e.encode = e.header ++ (e.keys.flatMap QdayKeys.bytes ++ e.proof) := by
  simp only [encode,header,proof,List.append_assoc,List.cons_append]

theorem length_qdayMagic : qdayMagic.length = 5 := by decide

@[simp] theorem length_header : e.header.length = 16 := by
  simp only [header,List.length_append,List.length_cons,length_qdayMagic,length_encodeUint64,length_littleEndian]

theorem length_proof : e.proof.length = if e.kind = qdayCanaryProof then 32 else 0 := by
  rw [proof]
  split_ifs
  · exact e.witness.property
  · rfl

theorem length_keys (keys : List QdayKeys) : (keys.flatMap QdayKeys.bytes).length = 64 * keys.length := by
  induction keys with
  | nil => rfl
  | cons k keys ih =>
    rw [List.flatMap_cons,List.length_append,ih,QdayKeys.bytes,List.length_append,k.classical.property,
      k.reserve.property,List.length_cons]
    omega

theorem length_encode : e.encode.length = 16 + 64 * e.keys.length + if e.kind = qdayCanaryProof then 32 else 0 := by
  rw [encode_eq,List.length_append,List.length_append,length_header,length_keys,length_proof,Nat.add_assoc]

theorem take_encode : e.encode.take 5 = qdayMagic := by
  rw [encode_eq,header,List.append_assoc]
  exact List.take_left' length_qdayMagic

theorem getD_encode : e.encode.getD 5 0 = e.kind := by
  rw [encode_eq,header,List.append_assoc,List.getD_eq_getElem?_getD,
    List.getElem?_append_right length_qdayMagic.le,length_qdayMagic]
  rfl

theorem drop_encode : e.encode.drop 6 = encodeUint64 e.nonce ++
    (littleEndian 2 e.keys.length ++ (e.keys.flatMap QdayKeys.bytes ++ e.proof)) := by
  have hsplit : e.encode = (qdayMagic ++ [e.kind]) ++ (encodeUint64 e.nonce ++
      (littleEndian 2 e.keys.length ++ (e.keys.flatMap QdayKeys.bytes ++ e.proof))) := by
    simp only [encode_eq,header,List.append_assoc,List.cons_append,List.nil_append]
  rw [hsplit]
  exact List.drop_left' (by rw [List.length_append,length_qdayMagic,List.length_singleton])

theorem nonce_encode : UInt64.ofNat (ofLittleEndian ((e.encode.drop 6).take 8)) = e.nonce := by
  rw [drop_encode,List.take_left' (length_encodeUint64 _),encodeUint64,ofLittleEndian_littleEndian]
  have hlt : e.nonce.toNat < 256^8 := e.nonce.toNat_lt
  rw [Nat.mod_eq_of_lt hlt,UInt64.ofNat_toNat]

theorem count_encode (hlen : e.keys.length ≤ 128) : ofLittleEndian ((e.encode.drop 14).take 2) = e.keys.length := by
  have hdrop : e.encode.drop 14 = (e.encode.drop 6).drop 8 := by rw [List.drop_drop]
  rw [hdrop,drop_encode,List.drop_left' (length_encodeUint64 _),List.take_left' (length_littleEndian _ _),
    ofLittleEndian_littleEndian,Nat.mod_eq_of_lt (by omega)]

theorem witness_encode (h : e.kind = qdayCanaryProof) : slice 32 (e.encode.length - 32) e.encode = e.witness := by
  have hproof : e.proof = e.witness.val := if_pos h
  refine Subtype.ext ?_
  have hsplit : e.encode = (e.header ++ e.keys.flatMap QdayKeys.bytes) ++ (e.witness.val ++ []) := by
    rw [encode_eq,hproof,List.append_nil,List.append_assoc]
  rw [length_encode,if_pos h,Nat.add_sub_cancel,hsplit]
  refine slice_append ?_ e.witness.property []
  rw [List.length_append,length_header,length_keys]

end QdayEnvelope

theorem parseQdayEnvelope_encode {e : QdayEnvelope} (hkind : qdayTransfer ≤ e.kind ∧ e.kind ≤ qdayMiningWork)
    (hlen : e.keys.length ≤ 128) (hvalid : ∀ k ∈ e.keys, k.validate = .ok ())
    (hwitness : e.kind ≠ qdayCanaryProof → e.witness = default) : parseQdayEnvelope e.encode = .ok e := by
  have hkeys : parseQdayKeys e.encode e.keys.length 0 = .ok e.keys := by
    rw [QdayEnvelope.encode_eq]
    exact parseQdayKeys_encode e.keys hvalid e.length_header e.proof
  simp only [parseQdayEnvelope,bind_eq_ok,rejectIf_eq_ok,pure_eq_ok,
    e.getD_encode,e.nonce_encode,e.count_encode hlen,e.take_encode,e.length_encode,hkeys]
  refine ⟨(),?_,(),?_,e.keys,rfl,?_⟩
  · rintro (hshort | hmagic)
    · omega
    · exact hmagic rfl
  · rintro (hlow | hhigh | hmany | hlength)
    · exact UInt8.not_lt.mpr hkind.1 hlow
    · exact UInt8.not_lt.mpr hkind.2 hhigh
    · omega
    · exact hlength rfl
  · by_cases hproof : e.kind = qdayCanaryProof
    · have hslice := e.witness_encode hproof
      rw [e.length_encode] at hslice
      simp only [if_pos hproof] at hslice ⊢
      rw [hslice]
      rfl
    · simp only [if_neg hproof,← hwitness hproof]
      rfl

end Encoded

section Parsed

variable {b : Bytes}

theorem parseQdayKeys_bytes {keys : List QdayKeys} (hroom : 16 + 64 * (i + n) ≤ b.length)
    (h : parseQdayKeys b n i = .ok keys) :
    keys.length = n ∧ keys.flatMap QdayKeys.bytes = (b.drop (16 + 64 * i)).take (64 * n) ∧ ∀ k ∈ keys, k.validate = .ok () := by
  induction n generalizing i keys with
  | zero =>
    obtain rfl : [] = keys := Except.ok.inj h
    refine ⟨rfl,?_,fun k hk => by cases hk⟩
    rw [Nat.mul_zero,List.take_zero]
    rfl
  | succ n ih =>
    rw [parseQdayKeys,bind_unit_eq_ok] at h
    simp only [bind_eq_ok,pure_eq_ok] at h
    obtain ⟨hvalid,rest,hrest,rfl⟩ := h
    obtain ⟨hlength,hbytes,hvalids⟩ := ih (by omega) hrest
    refine ⟨by rw [List.length_cons,hlength],?_,List.forall_mem_cons.mpr ⟨hvalid,hvalids⟩⟩
    have hnext : 16 + 64 * (i + 1) = 16 + 64 * i + 32 + 32 := by omega
    have hreserve : 48 + 64 * i = 16 + 64 * i + 32 := by omega
    have hcount : 64 * (n + 1) = 32 + (32 + 64 * n) := by omega
    rw [List.flatMap_cons,hbytes,QdayKeys.bytes,slice_of_le (by omega),slice_of_le (by omega),hnext,hreserve,hcount,
      List.take_add,List.take_add,List.drop_drop,List.drop_drop,List.append_assoc]

theorem littleEndian_slice (h : i + n ≤ b.length) : littleEndian n (ofLittleEndian ((b.drop i).take n)) = (b.drop i).take n := by
  have hlength : ((b.drop i).take n).length = n := by
    rw [List.length_take,List.length_drop]
    omega
  have hround := littleEndian_ofLittleEndian ((b.drop i).take n)
  rwa [hlength] at hround

theorem encodeUint64_slice (h : i + 8 ≤ b.length) :
    encodeUint64 (UInt64.ofNat (ofLittleEndian ((b.drop i).take 8))) = (b.drop i).take 8 := by
  have hlt := ofLittleEndian_lt ((b.drop i).take 8)
  have hlength : ((b.drop i).take 8).length = 8 := by
    rw [List.length_take,List.length_drop]
    omega
  rw [hlength] at hlt
  rw [encodeUint64,UInt64.toNat_ofNat_of_lt' hlt,littleEndian_slice h]

/-- What `ParseQdayEnvelope` has made sure of. -/
theorem parseQdayEnvelope_inv {e : QdayEnvelope} (h : parseQdayEnvelope b = .ok e) :
    16 ≤ b.length ∧ b.take 5 = qdayMagic ∧ b.getD 5 0 = e.kind ∧ qdayTransfer ≤ e.kind ∧ e.kind ≤ qdayMiningWork ∧
      UInt64.ofNat (ofLittleEndian ((b.drop 6).take 8)) = e.nonce ∧ ofLittleEndian ((b.drop 14).take 2) = e.keys.length ∧
      e.keys.length ≤ 128 ∧ b.length = 16 + 64 * e.keys.length + (if e.kind = qdayCanaryProof then 32 else 0) ∧
      e.keys.flatMap QdayKeys.bytes = (b.drop 16).take (64 * e.keys.length) ∧ (∀ k ∈ e.keys, k.validate = .ok ()) ∧
      e.witness = if e.kind = qdayCanaryProof then slice 32 (b.length - 32) b else default := by
  rw [parseQdayEnvelope,bind_unit_eq_ok,rejectIf_eq_ok] at h
  obtain ⟨hstart,h⟩ := h
  rw [not_or,not_lt,not_not] at hstart
  dsimp only at h
  rw [bind_unit_eq_ok,rejectIf_eq_ok] at h
  obtain ⟨hform,h⟩ := h
  simp only [not_or,not_not,bind_eq_ok,pure_eq_ok] at h hform
  obtain ⟨hlow,hhigh,hmany,hlength⟩ := hform
  obtain ⟨keys,hkeys,rfl⟩ := h
  obtain ⟨hcount,hbytes,hvalid⟩ := parseQdayKeys_bytes (by omega) hkeys
  refine ⟨hstart.1,hstart.2,rfl,UInt8.not_lt.mp hlow,UInt8.not_lt.mp hhigh,rfl,hcount.symm,?_,?_,?_,hvalid,?_⟩
  · change keys.length ≤ 128
    omega
  · rw [hlength]
    change _ = 16 + 64 * keys.length + _
    rw [hcount]
  · change keys.flatMap QdayKeys.bytes = (b.drop 16).take (64 * keys.length)
    rw [hcount]
    exact hbytes
  · dsimp only
    by_cases hproof : b.getD 5 0 = qdayCanaryProof
    · rw [if_pos hproof,if_pos hproof,if_pos (by decide)]
    · rw [if_neg hproof,if_neg hproof,if_neg (by decide)]

/-- What was parsed is encoded as it was. -/
theorem encode_parseQdayEnvelope {e : QdayEnvelope} (h : parseQdayEnvelope b = .ok e) : e.encode = b := by
  obtain ⟨hlong,hmagic,hkind,-,-,hnonce,hcount,-,hlength,hkeys,-,hwitness⟩ := parseQdayEnvelope_inv h
  have hheader : e.header = b.take 16 := by
    have hsplit : b.take 16 = b.take 5 ++ ((b.drop 5).take 1 ++ ((b.drop 6).take 8 ++ (b.drop 14).take 2)) := by
      rw [show 16 = 5 + (1 + (8 + 2)) from rfl,List.take_add,List.take_add,List.take_add,List.drop_drop,List.drop_drop]
    have hbyte : (b.drop 5).take 1 = [e.kind] := by
      have hfive : 5 < b.length := by omega
      rw [List.drop_eq_getElem_cons hfive,← hkind,List.getD_eq_getElem _ _ hfive]
      rfl
    rw [QdayEnvelope.header,hsplit,hmagic,hbyte,← hnonce,← hcount,encodeUint64_slice (by omega),littleEndian_slice (by omega)]
    rfl
  have hproof : e.proof = b.drop (16 + 64 * e.keys.length) := by
    rw [QdayEnvelope.proof]
    by_cases hcanary : e.kind = qdayCanaryProof
    · rw [if_pos hcanary] at hwitness hlength ⊢
      have hend : b.length - 32 = 16 + 64 * e.keys.length := by omega
      rw [hwitness,slice_of_le (by omega),hend]
      exact List.take_of_length_le (by rw [List.length_drop]; omega)
    · rw [if_neg hcanary] at hlength ⊢
      exact (List.drop_eq_nil_of_le (by omega)).symm
  calc e.encode = b.take 16 ++ ((b.drop 16).take (64 * e.keys.length) ++ b.drop (16 + 64 * e.keys.length)) := by
        rw [QdayEnvelope.encode_eq,hheader,hkeys,hproof]
    _ = b := by
        rw [← List.drop_drop,List.take_append_drop,List.take_append_drop]

end Parsed

theorem QdayKeys.validate_eq_ok (k : QdayKeys) : k.validate = .ok () ↔ k.classical ≠ default ∧ k.reserve ≠ default := by
  rw [QdayKeys.validate,rejectIf_eq_ok,not_or]

/-- Encoding and parsing are inverse to each other: on the envelopes of a known kind, with at most
128 pairs of nonzero keys and no witness outside a canary proof, and on the accepted texts. -/
theorem qdayEnvelope_roundTrip :
    (∀ e : QdayEnvelope, 1 ≤ e.kind → e.kind ≤ 4 → e.keys.length ≤ 128 → (∀ k ∈ e.keys, k.classical ≠ default ∧ k.reserve ≠ default) →
      (e.kind ≠ qdayCanaryProof → e.witness = default) → parseQdayEnvelope e.encode = .ok e) ∧
    ∀ (b : Bytes) (e : QdayEnvelope), parseQdayEnvelope b = .ok e → e.encode = b := by
  constructor
  · intro e hlow hhigh hmany hkeys hwitness
    exact parseQdayEnvelope_encode ⟨hlow,hhigh⟩ hmany (fun k hk => k.validate_eq_ok.mpr (hkeys k hk)) hwitness
  · intro b e h
    exact encode_parseQdayEnvelope h

def sampleCanaryEnvelope : QdayEnvelope :=
  { kind := qdayCanaryProof
    nonce := 7
    keys := [{ classical := ⟨List.replicate 32 1, rfl⟩, reserve := ⟨List.replicate 32 2, rfl⟩ }]
    witness := ⟨List.replicate 32 3, rfl⟩ }

theorem qdayEnvelope_roundTrip_sample :
    parseQdayEnvelope sampleCanaryEnvelope.encode = .ok sampleCanaryEnvelope ∧ sampleCanaryEnvelope.encode = sampleCanaryEnvelope.encode.take 112 := by
  have hforward := qdayEnvelope_roundTrip.1 sampleCanaryEnvelope (by decide) (by decide) (by decide) (by decide) (by decide)
  have hback := qdayEnvelope_roundTrip.2 (sampleCanaryEnvelope.encode.take 112) sampleCanaryEnvelope (by rw [List.take_of_length_le (by decide),hforward])
  exact ⟨hforward,hback⟩

end QdayNode
