import QdayNode.Types.Policy
import QdayNode.Types.Bech32

/-!
# The text of an address

An address is the hash of its spend policy.  Its canonical text has 64 characters: the name
`qday`, the separator, a version symbol, the hash in symbols of five bits and a checksum of
six symbols.  `ParseQdayAddress` also takes the older text, which spells out the two keys.
-/
namespace QdayNode
open ByteString Radix Outcome

variable {c : Crypto}

abbrev QdayAddress := Address

namespace QdayAddress

def validate (a : QdayAddress) : Outcome Unit := rejectIf (a = default) "zero QDAY address"

def string (a : QdayAddress) : Outcome Bytes := do
  let data ← (bech32ConvertBits a.val 8 5 true).attempt
  bech32mEncode (ascii "qday") (1 :: data.getD [])

end QdayAddress

def QdayKeys.address (c : Crypto) (k : QdayKeys) : QdayAddress := k.policy.address c

/-- The text with the two keys and four bytes of their hash. -/
def parseLegacyAddress (c : Crypto) (s : Bytes) : Outcome QdayAddress :=
  match Text.hexDecode (s.drop 5) with
  | none => fail "invalid legacy QDAY address encoding"
  | some b => do
      let h := c.sha256 (ascii "QDAY/address/v1" ++ b.take 64)
      rejectIf (h.val.take 4 ≠ b.drop 64) "QDAY address checksum mismatch"
      let k : QdayKeys := ⟨slice 32 0 b, slice 32 32 b⟩
      k.validate
      pure (k.address c)

def parseQdayAddress (c : Crypto) (s : Bytes) : Outcome QdayAddress :=
  if s.length = 141 ∧ s.take 5 = ascii "qday1" then parseLegacyAddress c s
  else do
    rejectIf (s.length ≠ 64) "QDAY addresses must contain 64 characters"
    let (hrp, data) ← bech32mDecode s
    rejectIf (hrp ≠ ascii "qday" ∨ data.length ≠ 53 ∨ data.getD 0 0 ≠ 1) "unsupported QDAY address network or version"
    match ← (bech32ConvertBits (data.drop 1) 5 8 false).attempt with
    | none => fail "invalid QDAY address padding or payload"
    | some b =>
      rejectIf (b.length ≠ 32) "invalid QDAY address padding or payload"
      let a : QdayAddress := slice 32 0 b
      a.validate
      pure a

section Canonical

variable {a : QdayAddress} {s : Bytes}

def addressSymbols (a : QdayAddress) : Bytes := symbolsOf 5 52 (symbolsValue 8 a.val * 2^4)

def addressText (a : QdayAddress) : Bytes := bech32Text (ascii "qday") (1 :: addressSymbols a)

theorem addressSymbols_lt (a : QdayAddress) : ∀ v ∈ 1 :: addressSymbols a, v.toNat < 2^5 :=
  List.forall_mem_cons.mpr ⟨by decide,symbolsOf_lt (by decide)⟩

theorem addressValue_lt (a : QdayAddress) : symbolsValue 8 a.val * 2^4 < 2^(5 * 52) := by
  have hlt := symbolsValue_lt (bytes_lt a.val)
  rw [a.property] at hlt
  omega

theorem QdayAddress.string_eq (a : QdayAddress) : a.string = .ok (addressText a) := by
  have hconvert : bech32ConvertBits a.val 8 5 true = .ok (addressSymbols a) := by
    have hpad := bech32ConvertBits_pad (by decide : 0 < 5) (by decide : 0 < 8) (by decide) (bytes_lt a.val) (by rw [a.property]; decide)
    rw [a.property,show 8 * 32 / 5 + 1 = 52 from rfl,show 5 - 8 * 32 % 5 = 4 from rfl] at hpad
    exact hpad
  have hattempt : (bech32ConvertBits a.val 8 5 true).attempt = .ok (some (addressSymbols a)) := attempt_eq_some.mpr hconvert
  rw [QdayAddress.string,hattempt,ok_bind,Option.getD_some,bech32mEncode_eq _ (addressSymbols_lt a),addressText]

/-- `QdayAddress.String` where a text is needed: it does not panic. -/
def QdayAddress.text (a : QdayAddress) : Bytes :=
  match a.string with
  | .ok s => s
  | .error _ => []

theorem QdayAddress.text_eq (a : QdayAddress) : a.text = addressText a := by
  rw [QdayAddress.text,a.string_eq]

@[simp] theorem length_addressText (a : QdayAddress) : (addressText a).length = 64 := by
  rw [addressText,bech32Text,List.length_append,List.length_cons,List.length_map,List.length_append,List.length_cons,addressSymbols,
    length_symbolsOf,length_bech32Checksum]
  rfl

theorem lower_addressText (a : QdayAddress) : Text.lower (addressText a) = addressText a :=
  lower_bech32Text (by decide +kernel) (addressSymbols_lt a)

theorem addressText_printable (a : QdayAddress) : ∀ b ∈ addressText a, ¬ (b < 33 ∨ b > 126) := by
  have hhrp : ∀ b ∈ ascii "qday", ¬ (b < 33 ∨ b > 126) := by decide +kernel
  rw [addressText,bech32Text,List.forall_mem_append,List.forall_mem_cons,List.forall_mem_map,List.forall_mem_append]
  refine ⟨hhrp,by decide,?_,?_⟩
  · intro v hv
    exact (bech32Char_plain (addressSymbols_lt a v hv)).2.2
  · intro v hv
    exact (bech32Char_plain (checksum_lt _ _ v hv)).2.2

theorem upper_printable {b : UInt8} (h : ¬ (b < 33 ∨ b > 126)) : ¬ (Text.upperByte b < 33 ∨ Text.upperByte b > 126) := by
  refine Text.forall_byte (p := fun b => ¬ (b < 33 ∨ b > 126) → ¬ (Text.upperByte b < 33 ∨ Text.upperByte b > 126)) ?_ b h
  decide +kernel

theorem payload_eq_ok {data : Bytes} (hlength : data.length = 52) :
    bech32ConvertBits data 5 8 false = .ok a.val ↔ data = addressSymbols a := by
  have hlt := addressValue_lt a
  rw [bech32ConvertBits_eq_ok (by decide) (by decide) (by decide),hlength,show 5 * 52 % 8 = 4 from rfl,show 5 * 52 / 8 = 32 from rfl]
  constructor
  · rintro ⟨hdata,-,hpadding,hbytes⟩
    have hpayload : symbolsValue 8 a.val = symbolsValue 5 data / 2^4 := by
      have hvalue := symbolsValue_lt hdata
      rw [hlength] at hvalue
      rw [← hbytes]
      exact symbolsValue_symbolsOf (by decide) (by omega)
    have hwhole : symbolsValue 8 a.val * 2^4 = symbolsValue 5 data := by
      rw [hpayload]
      omega
    rw [addressSymbols,hwhole,← hlength,symbolsOf_symbolsValue hdata]
  · intro hdata
    rw [hdata,addressSymbols,symbolsValue_symbolsOf (by decide) hlt]
    have hround := symbolsOf_symbolsValue (bytes_lt a.val)
    rw [a.property] at hround
    rw [Nat.mul_div_cancel _ (by decide)]
    exact ⟨symbolsOf_lt (by decide),by decide,Nat.mul_mod_left _ _,hround⟩

/-- A text of 64 characters is accepted exactly if it spells the address, in one letter case. -/
theorem parseQdayAddress_iff (hs : s.length = 64) :
    parseQdayAddress c s = .ok a ↔ a ≠ default ∧ (s = Text.lower s ∨ s = Text.upper s) ∧ Text.lower s = addressText a := by
  have hnew : ¬ (s.length = 141 ∧ s.take 5 = ascii "qday1") := by
    rintro ⟨hlegacy,-⟩
    omega
  rw [parseQdayAddress,if_neg hnew,rejectIf_of_not (not_not.mpr hs),ok_bind,bind_eq_ok]
  constructor
  · rintro ⟨⟨hrp,data⟩,hdecode,h⟩
    rw [bind_unit_eq_ok,rejectIf_eq_ok,bind_eq_ok] at h
    obtain ⟨hkind,converted,hconvert,h⟩ := h
    simp only [not_or,not_not] at hkind
    obtain ⟨rfl,hlength,hversion⟩ := hkind
    cases converted with
    | none => cases h
    | some b =>
      dsimp only at h
      rw [bind_unit_eq_ok,rejectIf_eq_ok,not_not,bind_unit_eq_ok,QdayAddress.validate,
        rejectIf_eq_ok,pure_eq_ok] at h
      obtain ⟨hbytes,hzero,rfl⟩ := h
      obtain ⟨-,-,hcase,-,-,hdata,htext⟩ := bech32mDecode_eq_ok.mp hdecode
      have hval : (slice 32 0 b).val = b := by
        rw [slice_of_le (by omega),List.drop_zero,List.take_of_length_le hbytes.le]
      cases data with
      | nil => cases hlength
      | cons version payload =>
        obtain rfl : version = 1 := hversion
        rw [List.drop_one,List.tail_cons,attempt_eq_some,← hval,payload_eq_ok (Nat.succ.inj hlength)] at hconvert
        rw [hconvert] at htext
        exact ⟨hzero,hcase,htext⟩
  · rintro ⟨hzero,hcase,htext⟩
    have hprintable : ∀ b ∈ s, ¬ (b < 33 ∨ b > 126) := by
      rcases hcase with hlower | hupper
      · rw [hlower,htext]
        exact addressText_printable a
      · rw [hupper,← Text.upper_lower,htext,Text.upper,List.forall_mem_map]
        exact fun b hb => upper_printable (addressText_printable a b hb)
    have hdecode := bech32mDecode_eq_ok.mpr
      ⟨by omega,by omega,hcase,hprintable,by decide,addressSymbols_lt a,htext⟩
    have hlength : (1 :: addressSymbols a).length = 53 := by
      rw [List.length_cons,addressSymbols,length_symbolsOf]
    have hval : (slice 32 0 a.val) = a := by
      refine Subtype.ext ?_
      rw [slice_of_le (by rw [a.property]),List.drop_zero,List.take_of_length_le a.property.le]
    have hconvert := attempt_eq_some.mpr ((payload_eq_ok (by rw [addressSymbols,length_symbolsOf])).mpr rfl : bech32ConvertBits (addressSymbols a) 5 8 false = .ok a.val)
    refine ⟨_,hdecode,?_⟩
    dsimp only
    rw [rejectIf_of_not (by simp [hlength]),ok_bind,List.drop_one,List.tail_cons,hconvert,ok_bind]
    dsimp only
    rw [rejectIf_of_not (not_not.mpr a.property),ok_bind,hval,QdayAddress.validate,rejectIf_of_not hzero]
    rfl

/-- Every address but the zero one is read back from its text of 64 characters, and a text of 64
characters that is accepted is the text of the address it stands for, in either letter case. -/
theorem qdayAddress_roundTrip (c : Crypto) :
    (∀ a : QdayAddress, a ≠ default → ∃ s, a.string = .ok s ∧ s.length = 64 ∧ parseQdayAddress c s = .ok a) ∧
    (∀ (s : Bytes) (a : QdayAddress), s.length = 64 → parseQdayAddress c s = .ok a →
      a.string = .ok (Text.lower s) ∧ (s = Text.lower s ∨ s = Text.upper s)) ∧
    ∀ (s s' : Bytes) (a : QdayAddress), s.length = 64 → s'.length = 64 → parseQdayAddress c s = .ok a → parseQdayAddress c s' = .ok a →
      Text.lower s = Text.lower s' := by
  refine ⟨?_,?_,?_⟩
  · intro a ha
    have hlower := lower_addressText a
    exact ⟨addressText a,a.string_eq,length_addressText a,
      (parseQdayAddress_iff (length_addressText a)).mpr ⟨ha,Or.inl hlower.symm,hlower⟩⟩
  · intro s a hs h
    obtain ⟨-,hcase,htext⟩ := (parseQdayAddress_iff hs).mp h
    exact ⟨by rw [a.string_eq,htext],hcase⟩
  · intro s s' a hs hs' h h'
    obtain ⟨-,-,htext⟩ := (parseQdayAddress_iff hs).mp h
    obtain ⟨-,-,htext'⟩ := (parseQdayAddress_iff hs').mp h'
    rw [htext,htext']

theorem qdayAddress_roundTrip_sample :
    ∃ s, QdayAddress.string ⟨List.replicate 32 1, by decide⟩ = .ok s ∧
      parseQdayAddress sampleCrypto s = .ok ⟨List.replicate 32 1, by decide⟩ := by
  obtain ⟨s,hs,-,hparse⟩ := (qdayAddress_roundTrip sampleCrypto).1 ⟨List.replicate 32 1,by decide⟩ (by decide)
  exact ⟨s,hs,hparse⟩

end Canonical

section Errors

variable {a : QdayAddress}

def addressCode (a : QdayAddress) : Bytes := 1 :: addressSymbols a ++ bech32Checksum (ascii "qday") (1 :: addressSymbols a)

theorem addressText_eq (a : QdayAddress) : addressText a = ascii "qday1" ++ (addressCode a).map bech32Char := rfl

theorem addressCode_lt (a : QdayAddress) : ∀ v ∈ addressCode a, v.toNat < 2^5 :=
  List.forall_mem_append.mpr ⟨addressSymbols_lt a,checksum_lt _ _⟩

theorem length_addressCode (a : QdayAddress) : (addressCode a).length = 59 := by
  rw [addressCode,List.length_append,List.length_cons,addressSymbols,length_symbolsOf,length_bech32Checksum]

theorem addressCode_polymod (a : QdayAddress) : bech32Polymod (bech32Expand (ascii "qday") ++ addressCode a) = bech32mConstant :=
  (bech32Polymod_eq_constant (checksum_lt _ _) (length_bech32Checksum _ _)).mpr rfl

theorem map_bech32Char_inj {us vs : Bytes} (hus : ∀ v ∈ us, v.toNat < 2^5) (hvs : ∀ v ∈ vs, v.toNat < 2^5)
    (h : us.map bech32Char = vs.map bech32Char) : us = vs := by
  have hleft := mapM_bech32Value.mpr ⟨hus,rfl⟩
  have hright := mapM_bech32Value.mpr ⟨hvs,rfl⟩
  rw [h,hright] at hleft
  exact (Except.ok.inj hleft).symm

theorem addressText_injective : Function.Injective addressText := by
  intro a b h
  rw [addressText_eq,addressText_eq] at h
  have hcode := map_bech32Char_inj (addressCode_lt a) (addressCode_lt b) (List.append_cancel_left h)
  have hlength : ∀ a : QdayAddress, (addressSymbols a).length = 52 := fun a => length_symbolsOf 5 52 _
  obtain ⟨hsymbols,-⟩ := List.append_inj hcode (by rw [List.length_cons,List.length_cons,hlength,hlength])
  have hpayload := (payload_eq_ok (hlength a)).mpr rfl
  rw [(payload_eq_ok (hlength a)).mpr (List.cons.inj hsymbols).2,Except.ok.injEq] at hpayload
  exact (Subtype.ext hpayload).symm

variable {code : Bytes} {i : ℕ} {v : UInt8}

theorem polymod_of_accepted (hcode : ∀ v ∈ code, v.toNat < 2^5) (hlength : code.length = 59)
    (h : parseQdayAddress c (ascii "qday1" ++ code.map bech32Char) = .ok a) :
    bech32Polymod (bech32Expand (ascii "qday") ++ code) = bech32mConstant := by
  have hlower : Text.lower (ascii "qday1" ++ code.map bech32Char) = ascii "qday1" ++ code.map bech32Char := by
    have hchars : ∀ v ∈ code, (Text.lowerByte ∘ bech32Char) v = bech32Char v := fun v hv => (bech32Char_plain (hcode v hv)).1
    have hname : (ascii "qday1").map Text.lowerByte = ascii "qday1" := by decide +kernel
    rw [Text.lower,List.map_append,hname,List.map_map,List.map_congr_left hchars]
  obtain ⟨-,-,htext⟩ := (parseQdayAddress_iff (by rw [List.length_append,List.length_map,hlength]; rfl)).mp h
  rw [hlower,addressText_eq] at htext
  rw [map_bech32Char_inj hcode (addressCode_lt a) (List.append_cancel_left htext)]
  exact addressCode_polymod a

theorem bech32Polymod_set (pre : Bytes) (hi : i < code.length) (v : UInt8) :
    bech32Polymod (pre ++ code.set i v) = bech32Polymod (pre ++ code) ^^^
      bech32Register.step^[code.length - 1 - i] (BitVec.ofNat 32 code[i].toNat ^^^ BitVec.ofNat 32 v.toNat) := by
  have hlt : i < (registerSymbols code).length := by rwa [registerSymbols,List.length_map]
  have hset := bech32Register.run_set (bech32Register.run 1 (registerSymbols pre)) (registerSymbols code) hlt (BitVec.ofNat 32 v.toNat)
  have hmap : registerSymbols (code.set i v) = (registerSymbols code).set i (BitVec.ofNat 32 v.toNat) := List.map_set
  have hget : (registerSymbols code)[i] = BitVec.ofNat 32 code[i].toNat := List.getElem_map _
  have hlength : (registerSymbols code).length = code.length := List.length_map _
  rw [hget,hlength,← hmap,← ShiftRegister.run_append,← ShiftRegister.run_append,← registerSymbols_append,← registerSymbols_append,
    ← bech32Polymod_eq,← bech32Polymod_eq] at hset
  exact hset

theorem symbolError {u : UInt8} (hu : u.toNat < 2^5) (hv : v.toNat < 2^5) (h : u ≠ v) :
    BitVec.ofNat 32 u.toNat ^^^ BitVec.ofNat 32 v.toNat ∈ symbolErrors := by
  have hxor : (BitVec.ofNat 32 u.toNat ^^^ BitVec.ofNat 32 v.toNat).toNat = u.toNat ^^^ v.toNat := by
    rw [BitVec.toNat_xor,toNat_symbol,toNat_symbol]
  have hne : u.toNat ^^^ v.toNat ≠ 0 := fun hzero => h (UInt8.toNat_inj.mp (Nat.xor_eq_zero_iff.mp hzero))
  rw [symbolErrors,Set.mem_ofPred_eq,hxor]
  exact ⟨Nat.pos_of_ne_zero hne,Nat.xor_lt_two_pow hu hv⟩

theorem set_code {x : UInt8} (hi : 5 ≤ i) (hlt : i < code.length + 5) (hx : x ∈ bech32Alphabet)
    (hne : (ascii "qday1" ++ code.map bech32Char)[i]? ≠ some x) :
    ∃ v : UInt8, v.toNat < 2^5 ∧ (∃ h : i - 5 < code.length, code[i - 5] ≠ v) ∧
      (ascii "qday1" ++ code.map bech32Char).set i x = ascii "qday1" ++ (code.set (i - 5) v).map bech32Char := by
  have hname : (ascii "qday1").length = 5 := rfl
  obtain ⟨v,hv,rfl⟩ := exists_bech32Char hx
  have hplace : i - 5 < code.length := by omega
  refine ⟨v,hv,⟨hplace,?_⟩,?_⟩
  · intro heq
    apply hne
    rw [List.getElem?_append_right (by omega),hname,List.getElem?_map,List.getElem?_eq_getElem hplace,Option.map_some,heq]
  · rw [List.set_append_right _ _ (by omega),hname,List.map_set]

theorem parseLegacyAddress_returns (c : Crypto) (s : Bytes) : Returns (parseLegacyAddress c s) := by
  rw [parseLegacyAddress]
  split
  · exact returns_fail _
  · exact (returns_rejectIf _ _).bind fun _ _ => (returns_rejectIf _ _).bind fun _ _ => returns_pure _

theorem parseQdayAddress_returns (c : Crypto) (s : Bytes) : Returns (parseQdayAddress c s) := by
  rw [parseQdayAddress]
  split_ifs
  · exact parseLegacyAddress_returns c s
  · refine (returns_rejectIf _ _).bind fun _ _ => (bech32mDecode_returns s).bind fun decoded _ => ?_
    refine (returns_rejectIf _ _).bind fun _ _ => (returns_attempt (bech32ConvertBits_returns _ _ _ _)).bind fun b _ => ?_
    split
    · exact returns_fail _
    · exact (returns_rejectIf _ _).bind fun _ _ => (returns_rejectIf _ _).bind fun _ _ => returns_pure _

theorem parseQdayAddress_refuses (hcode : ∀ v ∈ code, v.toNat < 2^5) (hlength : code.length = 59)
    (h : bech32Polymod (bech32Expand (ascii "qday") ++ code) ≠ bech32mConstant) :
    ∃ msg, parseQdayAddress c (ascii "qday1" ++ code.map bech32Char) = fail msg :=
  eq_fail_of_returns (parseQdayAddress_returns c _) fun _ hok => h (polymod_of_accepted hcode hlength hok)

theorem set_lt (hcode : ∀ v ∈ code, v.toNat < 2^5) (hv : v.toNat < 2^5) (i : ℕ) :
    ∀ u ∈ code.set i v, u.toNat < 2^5 := by
  intro u hu
  rcases List.mem_or_eq_of_mem_set hu with hu | rfl
  · exact hcode u hu
  · exact hv

theorem xor_eq_left_iff {k z : BitVec 32} : k ^^^ z = k ↔ z = 0 := by
  constructor
  · intro h
    have hcancel := congrArg (k ^^^ ·) h
    rwa [← BitVec.xor_assoc,BitVec.xor_self,BitVec.zero_xor] at hcancel
  · intro h
    rw [h]
    exact BitVec.xor_zero

/-- One or two characters of the alphabet in the place of others after the separator are always
noticed. -/
theorem parseQdayAddress_detects (c : Crypto) (a : QdayAddress) : ∃ s, a.string = .ok s ∧ s.length = 64 ∧
    (∀ (i : ℕ) (x : UInt8), 5 ≤ i → i < 64 → x ∈ bech32Alphabet → s[i]? ≠ some x →
      ∃ msg, parseQdayAddress c (s.set i x) = fail msg) ∧
    ∀ (i j : ℕ) (x y : UInt8), 5 ≤ i → i < 64 → 5 ≤ j → j < 64 → i ≠ j → x ∈ bech32Alphabet → y ∈ bech32Alphabet →
      s[i]? ≠ some x → s[j]? ≠ some y → ∃ msg, parseQdayAddress c ((s.set i x).set j y) = fail msg := by
  have hlength := length_addressCode a
  have hright := addressCode_polymod a
  refine ⟨addressText a,a.string_eq,length_addressText a,?_,?_⟩
  · intro i x hi hlt hx hne
    rw [addressText_eq] at hne ⊢
    obtain ⟨v,hv,⟨hplace,hchanged⟩,hset⟩ := set_code hi (by omega) hx hne
    rw [hset]
    refine parseQdayAddress_refuses (set_lt (addressCode_lt a) hv _) (by rw [List.length_set,hlength]) ?_
    have herror := symbolError (addressCode_lt a _ (List.getElem_mem hplace)) hv hchanged
    rw [bech32Polymod_set _ hplace,hright,ne_eq,xor_eq_left_iff]
    exact bech32Register_separates.single herror _
  · intro i j x y hi hilt hj hjlt hij hx hy hnex hney
    rw [addressText_eq] at hnex hney ⊢
    obtain ⟨v,hv,⟨hplace,hchanged⟩,hset⟩ := set_code hi (by omega) hx hnex
    rw [← List.getElem?_set_ne hij,hset] at hney
    obtain ⟨u,hu,⟨hplace',hchanged'⟩,hset'⟩ := set_code hj (by rw [List.length_set]; omega) hy hney
    have hlength' : ((addressCode a).set (i - 5) v).length = 59 := by rw [List.length_set,hlength]
    rw [hset,hset']
    refine parseQdayAddress_refuses (set_lt (set_lt (addressCode_lt a) hv _) hu _) (by rw [List.length_set,hlength']) ?_
    have hfirst := symbolError (addressCode_lt a _ (List.getElem_mem hplace)) hv hchanged
    have hsecond := symbolError (set_lt (addressCode_lt a) hv _ _ (List.getElem_mem hplace')) hu hchanged'
    rw [bech32Polymod_set _ hplace',bech32Polymod_set _ hplace,hright,BitVec.xor_assoc,ne_eq,xor_eq_left_iff]
    intro hsum
    exact bech32Register_separates.pair hfirst hsecond (by omega) (by omega) (by omega) (BitVec.xor_eq_zero_iff.mp hsum)

end Errors

end QdayNode
