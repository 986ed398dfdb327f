import QdayNode.Types.Basic
import QdayNode.Library.Radix
import QdayNode.Library.ShiftRegister
import QdayNode.Library.Text

/-!
# Bech32m texts

A text is a name, a separator, symbols of five bits and a checksum of six symbols.  Between
symbols of five bits and bytes `bech32ConvertBits` regroups the bits of a number.  The
checksum is what a linear shift register holds after the whole text.
-/
namespace QdayNode
open ByteString Radix Outcome

variable {b : ℕ} {data cs hrp : Bytes} {v : UInt8} {x : BitVec 32}

def bech32Alphabet : Bytes := ascii "qpzry9x8gf2tvdw0s3jn54khce6mua7l"

def bech32mConstant : BitVec 32 := 0x2bc830a3

def bech32Gen : List (BitVec 32) := [0x3b6a57b2, 0x26508e6d, 0x1ea119fa, 0x3d4233dd, 0x2a1462b3]

/-- The loop over the generators: those of the bits in `top` are added. -/
def bech32Feedback (top chk : BitVec 32) : BitVec 32 :=
  bech32Gen.zipIdx.foldl (fun chk g => if top >>> g.2 &&& 1 ≠ 0 then chk ^^^ g.1 else chk) chk

def bech32Polymod (values : Bytes) : BitVec 32 :=
  values.foldl (fun chk value => bech32Feedback (chk >>> 25) ((chk &&& 0x1ffffff) <<< 5 ^^^ BitVec.ofNat 32 value.toNat)) 1

def bech32Expand (hrp : Bytes) : Bytes := hrp.map (fun b : UInt8 => b >>> 5) ++ 0 :: hrp.map fun b : UInt8 => b &&& 31

def bech32Symbol (v : ℕ) : Outcome UInt8 :=
  match bech32Alphabet[v]? with
  | some b => .ok b
  | none => crash "index out of range"

def bech32Value (b : UInt8) : Outcome UInt8 :=
  match bech32Alphabet.idxOf? b with
  | some v => .ok (UInt8.ofNat v)
  | none => fail "invalid Bech32m data character"

def bech32mEncode (hrp data : Bytes) : Outcome Bytes := do
  let values := bech32Expand hrp ++ data
  let check := bech32Polymod (values ++ List.replicate 6 0) ^^^ bech32mConstant
  let symbols ← data.mapM fun v => bech32Symbol v.toNat
  let checksum ← [5, 4, 3, 2, 1, 0].mapM fun i => bech32Symbol (check >>> (5 * i) &&& 31).toNat
  pure (hrp ++ (49 :: (symbols ++ checksum)))

/-- `strings.ToLower` and `strings.ToUpper` may map more than ASCII, but a text with other
characters than those is refused by the check that follows in any case. -/
def bech32mDecode (s : Bytes) : Outcome (Bytes × Bytes) := do
  rejectIf (s.length < 8 ∨ s.length > 90 ∨ (s ≠ Text.lower s ∧ s ≠ Text.upper s)) "invalid Bech32m length or mixed case"
  rejectIf (∃ b ∈ s, b < 33 ∨ b > 126) "invalid Bech32m character"
  let s := Text.lower s
  match Text.lastIndexByte s 49 with
  | none => fail "invalid Bech32m separator"
  | some sep =>
    rejectIf (sep < 1 ∨ sep + 7 > s.length) "invalid Bech32m separator"
    let hrp := s.take sep
    let data ← (s.drop (sep + 1)).mapM bech32Value
    rejectIf (bech32Polymod (bech32Expand hrp ++ data) ≠ bech32mConstant) "QDAY address checksum mismatch"
    pure (hrp, data.take (data.length - 6))

/-- The inner loop of `bech32ConvertBits`; every pass takes `toBits` bits, so `fuel = bits` passes
are enough. -/
def bech32Emit (acc toBits : ℕ) : (fuel bits : ℕ) → Bytes → ℕ × Bytes
  | 0, bits, result => (bits, result)
  | fuel+1, bits, result =>
    if bits ≥ toBits then
      bech32Emit acc toBits fuel (bits - toBits) (result ++ [UInt8.ofNat (acc >>> (bits - toBits) &&& (2^toBits - 1))])
    else (bits, result)

/-- One pass of the outer loop: the accumulator, the number of bits that wait and the result. -/
def bech32Take (fromBits toBits : ℕ) (st : ℕ × ℕ × Bytes) (value : UInt8) : Outcome (ℕ × ℕ × Bytes) := do
  rejectIf (value.toNat >>> fromBits ≠ 0) "invalid Bech32m data value"
  let acc := (st.1 <<< fromBits % 2^32 ||| value.toNat) &&& (2^(fromBits + toBits - 1) - 1)
  let bits := st.2.1 + fromBits
  pure (acc, bech32Emit acc toBits bits bits st.2.2)

/-- What follows the outer loop. -/
def bech32Finish (fromBits toBits : ℕ) (pad : Bool) (acc bits : ℕ) (result : Bytes) : Outcome Bytes :=
  let last := acc <<< (toBits - bits) % 2^32 &&& (2^toBits - 1)
  if pad = true ∧ bits ≠ 0 then
    .ok (result ++ [UInt8.ofNat last])
  else if pad = false ∧ (bits ≥ fromBits ∨ last ≠ 0) then
    fail "noncanonical Bech32m padding"
  else
    .ok result

def bech32ConvertBits (data : Bytes) (fromBits toBits : ℕ) (pad : Bool) : Outcome Bytes := do
  let st ← data.foldlM (bech32Take fromBits toBits) (0, 0, [])
  bech32Finish fromBits toBits pad st.1 st.2.1 st.2.2

section Regrouping

variable {f t : ℕ}

variable {V acc : ℕ} {st : ℕ × ℕ × Bytes}

theorem bech32Emit_eq (ht : 0 < t) {k fuel : ℕ} (hacc : acc = V % 2^(f + t - 1)) (hb : b < f + t) (hfuel : b ≤ fuel) :
    bech32Emit acc t fuel b (symbolsOf t k (V / 2^b)) = (b % t, symbolsOf t (k + b / t) (V / 2^(b % t))) := by
  induction fuel generalizing b k with
  | zero =>
    obtain rfl : b = 0 := by omega
    rw [bech32Emit,Nat.zero_mod,Nat.zero_div,Nat.add_zero]
  | succ fuel ih =>
    rw [bech32Emit]
    by_cases hfull : b ≥ t
    · have hdigit : acc >>> (b - t) &&& (2^t - 1) = V / 2^(b - t) % 2^t := by
        obtain ⟨d,hd⟩ : ∃ d, f + t - 1 = (b - t) + (t + d) := ⟨f + t - 1 - b,by omega⟩
        rw [Nat.and_two_pow_sub_one_eq_mod,Nat.shiftRight_eq_div_pow,hacc,hd,pow_add,Nat.mod_mul_right_div_self,
          Nat.mod_mod_of_dvd _ (pow_dvd_pow 2 (Nat.le_add_right t d))]
      have hshift : V / 2^(b - t) / 2^t = V / 2^b := by
        rw [Nat.div_div_eq_div_mul,← pow_add,Nat.sub_add_cancel hfull]
      have hwritten := symbolsOf_succ t k (V / 2^(b - t))
      rw [hshift] at hwritten
      have hcount : k + 1 + (b - t) / t = k + b / t := by
        have hdiv := Nat.div_eq_sub_div ht hfull
        omega
      rw [if_pos hfull,hdigit,← hwritten,ih (by omega) (by omega),hcount,← Nat.mod_eq_sub_mod hfull]
    · have hshort : b < t := not_le.mp hfull
      rw [if_neg hfull,Nat.mod_eq_of_lt hshort,Nat.div_eq_of_lt hshort,Nat.add_zero]

def regrouped (f t : ℕ) (data : Bytes) : ℕ × ℕ × Bytes :=
  (symbolsValue f data % 2^(f + t - 1), f * data.length % t,
    symbolsOf t (f * data.length / t) (symbolsValue f data / 2^(f * data.length % t)))

theorem bech32Take_eq_ok (ht : 0 < t) (hwidth : f + t ≤ 16) :
    bech32Take f t (regrouped f t data) v = .ok st ↔ v.toNat < 2^f ∧ regrouped f t (data ++ [v]) = st := by
  rw [bech32Take,bind_unit_eq_ok,rejectIf_eq_ok,pure_eq_ok,not_not,Nat.shiftRight_eq_div_pow,
    Nat.div_eq_zero_iff_lt (Nat.two_pow_pos f)]
  refine and_congr_right fun hv => ?_
  have hacc : ((symbolsValue f data % 2^(f + t - 1)) <<< f % 2^32 ||| v.toNat) &&& (2^(f + t - 1) - 1) =
      symbolsValue f (data ++ [v]) % 2^(f + t - 1) := by
    have hsmall : (symbolsValue f data % 2^(f + t - 1)) * 2^f < 2^32 := by
      have hmod := Nat.mod_lt (symbolsValue f data) (Nat.two_pow_pos (f + t - 1))
      calc (symbolsValue f data % 2^(f + t - 1)) * 2^f < 2^(f + t - 1) * 2^f := Nat.mul_lt_mul_of_pos_right hmod (Nat.two_pow_pos f)
        _ = 2^(f + t - 1 + f) := (pow_add _ _ _).symm
        _ ≤ 2^32 := Nat.pow_le_pow_right (by decide) (by omega)
    have hfits : (symbolsValue f data % 2^(f + t - 1)) <<< f % 2^32 = (symbolsValue f data % 2^(f + t - 1)) <<< f :=
      Nat.mod_eq_of_lt (by rwa [Nat.shiftLeft_eq])
    rw [Nat.and_two_pow_sub_one_eq_mod,hfits,← Nat.shiftLeft_add_eq_or_of_lt hv,Nat.shiftLeft_eq,symbolsValue_concat,Nat.add_mod,
      Nat.mod_mul_mod,← Nat.add_mod]
  have hlength : f * (data ++ [v]).length = f * data.length + f := by
    rw [List.length_append,List.length_singleton,Nat.mul_succ]
  have hwaiting : symbolsValue f data / 2^(f * data.length % t) = symbolsValue f (data ++ [v]) / 2^(f * data.length % t + f) := by
    rw [symbolsValue_concat,Nat.add_comm (_ % t) f,pow_add,← Nat.div_div_eq_div_mul,Nat.mul_comm (symbolsValue f data),
      Nat.mul_add_div (Nat.two_pow_pos f),Nat.div_eq_of_lt hv,Nat.add_zero]
  have hcount : f * data.length / t + (f * data.length % t + f) / t = f * (data ++ [v]).length / t := by
    have hsplit := Nat.div_add_mod (f * data.length) t
    rw [hlength]
    conv_rhs => rw [← hsplit,Nat.add_assoc,Nat.mul_add_div ht]
  have hrest : (f * data.length % t + f) % t = f * (data ++ [v]).length % t := by
    rw [hlength,Nat.mod_add_mod]
  have hbits : f * data.length % t + f < f + t := by
    have hlt := Nat.mod_lt (f * data.length) ht
    omega
  simp only [regrouped,hacc]
  rw [hwaiting,bech32Emit_eq ht rfl hbits le_rfl,hcount,hrest]

theorem bech32Take_fold (ht : 0 < t) (hwidth : f + t ≤ 16) :
    data.foldlM (bech32Take f t) (0, 0, []) = .ok st ↔ (∀ v ∈ data, v.toNat < 2^f) ∧ regrouped f t data = st := by
  induction data using List.reverseRecOn generalizing st with
  | nil =>
    have hempty : regrouped f t [] = (0, 0, []) := by
      simp only [regrouped,symbolsValue,symbolsOf,List.map_nil,value_nil,List.length_nil,Nat.mul_zero,Nat.zero_mod,Nat.zero_div,
        digits]
    rw [List.foldlM_nil,pure_eq_ok,hempty]
    exact ⟨fun h => ⟨fun v hv => (List.not_mem_nil hv).elim,h⟩,fun h => h.2⟩
  | append_singleton data v ih =>
    rw [List.foldlM_append,bind_eq_ok,List.forall_mem_append,List.forall_mem_singleton]
    simp only [List.foldlM_cons,List.foldlM_nil,bind_pure]
    constructor
    · rintro ⟨mid,hmid,hlast⟩
      obtain ⟨hdata,rfl⟩ := ih.mp hmid
      obtain ⟨hv,hst⟩ := (bech32Take_eq_ok ht hwidth).mp hlast
      exact ⟨⟨hdata,hv⟩,hst⟩
    · rintro ⟨⟨hdata,hv⟩,hst⟩
      exact ⟨regrouped f t data,ih.mpr ⟨hdata,rfl⟩,(bech32Take_eq_ok ht hwidth).mpr ⟨hv,hst⟩⟩

theorem last_symbol (ht : 0 < t) (hwidth : f + t ≤ 16) (hb : b < t) (hf : 0 < f) :
    (V % 2^(f + t - 1)) <<< (t - b) % 2^32 &&& (2^t - 1) = V % 2^b * 2^(t - b) := by
  have hdvd : 2^t ∣ 2^32 := pow_dvd_pow 2 (by omega)
  have hpow : 2^t = 2^b * 2^(t - b) := by rw [← pow_add,Nat.add_sub_cancel' hb.le]
  rw [Nat.and_two_pow_sub_one_eq_mod,Nat.mod_mod_of_dvd _ hdvd,Nat.shiftLeft_eq,hpow,Nat.mul_mod_mul_right,
    Nat.mod_mod_of_dvd _ (pow_dvd_pow 2 (by omega))]

theorem bech32Finish_eq_ok {bits : ℕ} {result result' : Bytes} :
    bech32Finish f t false acc bits result = .ok result' ↔
      bits < f ∧ acc <<< (t - bits) % 2^32 &&& (2^t - 1) = 0 ∧ result = result' := by
  rw [bech32Finish,if_neg (by simp)]
  by_cases hbad : bits ≥ f ∨ acc <<< (t - bits) % 2^32 &&& (2^t - 1) ≠ 0
  · rw [if_pos ⟨rfl,hbad⟩]
    constructor
    · intro h
      cases h
    · rintro ⟨hfew,hzero,-⟩
      exact (hbad.elim (not_le.mpr hfew) fun h => h hzero).elim
  · rw [if_neg fun h => hbad h.2]
    rw [not_or,not_not,not_le] at hbad
    exact ⟨fun h => ⟨hbad.1,hbad.2,Except.ok.inj h⟩,fun h => congrArg Except.ok h.2.2⟩

/-- With padding, the text is the number with zeros behind it. -/
theorem bech32ConvertBits_pad (ht : 0 < t) (hf : 0 < f) (hwidth : f + t ≤ 16) (hdata : ∀ v ∈ data, v.toNat < 2^f)
    (hrest : f * data.length % t ≠ 0) :
    bech32ConvertBits data f t true =
      .ok (symbolsOf t (f * data.length / t + 1) (symbolsValue f data * 2^(t - f * data.length % t))) := by
  have hb := Nat.mod_lt (f * data.length) ht
  have hfold := (bech32Take_fold ht hwidth).mpr ⟨hdata,rfl⟩
  have hpow : 2^t = 2^(f * data.length % t) * 2^(t - f * data.length % t) := by rw [← pow_add,Nat.add_sub_cancel' hb.le]
  have hhigh : symbolsValue f data * 2^(t - f * data.length % t) / 2^t = symbolsValue f data / 2^(f * data.length % t) := by
    rw [hpow,Nat.mul_div_mul_right _ _ (Nat.two_pow_pos _)]
  have hlow : symbolsValue f data * 2^(t - f * data.length % t) % 2^t =
      symbolsValue f data % 2^(f * data.length % t) * 2^(t - f * data.length % t) := by
    conv_lhs => rw [hpow]
    rw [Nat.mul_mod_mul_right]
  rw [bech32ConvertBits,hfold,ok_bind,bech32Finish,if_pos ⟨rfl,hrest⟩,symbolsOf_succ,hhigh,hlow,
    ← last_symbol ht hwidth hb hf]
  rfl

/-- Without padding, the bits that are left over must be few and zero. -/
theorem bech32ConvertBits_eq_ok (ht : 0 < t) (hf : 0 < f) (hwidth : f + t ≤ 16) {result : Bytes} :
    bech32ConvertBits data f t false = .ok result ↔ (∀ v ∈ data, v.toNat < 2^f) ∧ f * data.length % t < f ∧
      symbolsValue f data % 2^(f * data.length % t) = 0 ∧
      symbolsOf t (f * data.length / t) (symbolsValue f data / 2^(f * data.length % t)) = result := by
  have hb := Nat.mod_lt (f * data.length) ht
  have hpos := Nat.two_pow_pos (t - f * data.length % t)
  have hlast : (regrouped f t data).1 <<< (t - (regrouped f t data).2.1) % 2^32 &&& (2^t - 1) = 0 ↔
      symbolsValue f data % 2^(f * data.length % t) = 0 := by
    simp only [regrouped]
    rw [last_symbol ht hwidth hb hf,Nat.mul_eq_zero,or_iff_left hpos.ne']
  simp only [bech32ConvertBits,bind_eq_ok,bech32Take_fold ht hwidth,bech32Finish_eq_ok]
  constructor
  · rintro ⟨-,⟨hdata,rfl⟩,hfew,hzero,hresult⟩
    exact ⟨hdata,hfew,hlast.mp hzero,hresult⟩
  · rintro ⟨hdata,hfew,hzero,hresult⟩
    exact ⟨regrouped f t data,⟨hdata,rfl⟩,hfew,hlast.mpr hzero,hresult⟩

end Regrouping

section Checksum

theorem selects_iff (x : BitVec 32) (i : ℕ) : x >>> i &&& 1 ≠ 0 ↔ x.getLsbD i = true := by
  simp only [ne_eq,BitVec.ofNat_eq_ofNat,BitVec.and_one_eq_setWidth_ofBool_getLsbD,BitVec.getLsbD_ushiftRight,Nat.add_zero]
  cases x.getLsbD i <;> decide

theorem feedback_xor (gen : List (BitVec 32 × ℕ)) (s t x y : BitVec 32) :
    gen.foldl (fun chk g => if (s ^^^ t) >>> g.2 &&& 1 ≠ 0 then chk ^^^ g.1 else chk) (x ^^^ y) =
      gen.foldl (fun chk g => if s >>> g.2 &&& 1 ≠ 0 then chk ^^^ g.1 else chk) x ^^^
        gen.foldl (fun chk g => if t >>> g.2 &&& 1 ≠ 0 then chk ^^^ g.1 else chk) y := by
  induction gen generalizing x y with
  | nil => rfl
  | cons g gen ih =>
    rw [List.foldl_cons,List.foldl_cons,List.foldl_cons,← ih]
    congr 1
    simp only [selects_iff,BitVec.getLsbD_xor]
    have hright : x ^^^ y ^^^ g.1 = x ^^^ (y ^^^ g.1) := BitVec.xor_assoc x y g.1
    have hleft : x ^^^ y ^^^ g.1 = (x ^^^ g.1) ^^^ y := by
      rw [BitVec.xor_assoc,BitVec.xor_comm y,BitVec.xor_assoc]
    have hboth : x ^^^ y = (x ^^^ g.1) ^^^ (y ^^^ g.1) := by
      rw [BitVec.xor_comm y,BitVec.xor_assoc,← BitVec.xor_assoc g.1,BitVec.xor_self,BitVec.zero_xor]
    cases s.getLsbD g.2 <;> cases t.getLsbD g.2
    · rfl
    · exact hright
    · exact hleft
    · exact hboth

theorem bech32Feedback_xor (s t x y : BitVec 32) :
    bech32Feedback (s ^^^ t) (x ^^^ y) = bech32Feedback s x ^^^ bech32Feedback t y := feedback_xor bech32Gen.zipIdx s t x y

theorem bech32Feedback_zero (x : BitVec 32) : bech32Feedback 0 x = x := by
  simp [bech32Feedback,bech32Gen]

theorem and_xor_distrib_right (x y m : BitVec 32) : (x ^^^ y) &&& m = (x &&& m) ^^^ (y &&& m) := by
  ext i
  simp only [BitVec.getElem_and,BitVec.getElem_xor,Bool.and_xor_distrib_right]

/-- The register behind `bech32Polymod`. -/
def bech32Register : ShiftRegister 32 where
  step x := bech32Feedback (x >>> 25) ((x &&& 0x1ffffff) <<< 5)
  step_xor x y := by
    rw [BitVec.ushiftRight_xor_distrib, and_xor_distrib_right, BitVec.shiftLeft_xor_distrib, bech32Feedback_xor]

def registerSymbols (values : Bytes) : List (BitVec 32) := values.map fun v => BitVec.ofNat 32 v.toNat

theorem bech32Feedback_add (top x y : BitVec 32) : bech32Feedback top (x ^^^ y) = bech32Feedback top x ^^^ y := by
  have h := bech32Feedback_xor top 0#32 x y
  rw [BitVec.xor_zero] at h
  rw [h]
  exact congrArg (bech32Feedback top x ^^^ ·) (bech32Feedback_zero y)

theorem bech32Polymod_eq (values : Bytes) : bech32Polymod values = bech32Register.run 1 (registerSymbols values) := by
  rw [bech32Polymod,registerSymbols,ShiftRegister.run,List.foldl_map]
  congr 1
  funext chk v
  exact bech32Feedback_add _ _ _

/-- The register holds thirty bits. -/
def thirtyBits : Set (BitVec 32) := {x | x >>> 30 = 0}

theorem mem_thirtyBits : x ∈ thirtyBits ↔ x.toNat < 2^30 := by
  rw [thirtyBits,Set.mem_ofPred_eq,← BitVec.toNat_inj,BitVec.toNat_ushiftRight,Nat.shiftRight_eq_div_pow]
  change x.toNat / 2^30 = 0 ↔ _
  exact Nat.div_eq_zero_iff_lt (by decide)

theorem xor_mem_thirtyBits {y : BitVec 32} (hx : x ∈ thirtyBits) (hy : y ∈ thirtyBits) : x ^^^ y ∈ thirtyBits := by
  rw [mem_thirtyBits,BitVec.toNat_xor]
  exact Nat.xor_lt_two_pow (mem_thirtyBits.mp hx) (mem_thirtyBits.mp hy)

theorem feedback_mem_thirtyBits (top : BitVec 32) (hx : x ∈ thirtyBits) : bech32Feedback top x ∈ thirtyBits := by
  have hgen : ∀ g ∈ bech32Gen.zipIdx, g.1 ∈ thirtyBits := by
    simp only [mem_thirtyBits]
    decide
  rw [bech32Feedback]
  refine List.foldlRecOn bech32Gen.zipIdx _ hx ?_
  intro chk hchk g hg
  split_ifs
  · exact xor_mem_thirtyBits hchk (hgen g hg)
  · exact hchk

theorem shifted_mem_thirtyBits (x : BitVec 32) : (x &&& 0x1ffffff) <<< 5 ∈ thirtyBits := by
  have hlow : (x &&& 0x1ffffff).toNat < 2^25 := by
    rw [BitVec.toNat_and]
    exact Nat.and_lt_two_pow _ (by decide)
  rw [mem_thirtyBits,BitVec.toNat_shiftLeft,Nat.shiftLeft_eq]
  omega

theorem step_mem_thirtyBits (x : BitVec 32) : bech32Register.step x ∈ thirtyBits :=
  feedback_mem_thirtyBits _ (shifted_mem_thirtyBits x)

theorem step_of_small (hx : x.toNat < 2^25) : (bech32Register.step x).toNat = x.toNat * 32 := by
  have htop : x >>> 25 = 0 := by
    rw [← BitVec.toNat_inj,BitVec.toNat_ushiftRight,Nat.shiftRight_eq_div_pow,Nat.div_eq_of_lt hx]
    rfl
  have hmask : (x &&& 0x1ffffff).toNat = x.toNat := by
    rw [BitVec.toNat_and]
    exact (Nat.and_two_pow_sub_one_eq_mod x.toNat 25).trans (Nat.mod_eq_of_lt hx)
  change (bech32Feedback (x >>> 25) ((x &&& 0x1ffffff) <<< 5)).toNat = _
  rw [htop,bech32Feedback_zero,BitVec.toNat_shiftLeft,hmask,Nat.shiftLeft_eq]
  omega

theorem step_kernel (hx : x ∈ thirtyBits) (h : bech32Register.step x = 0) : x = 0 := by
  have hlt := mem_thirtyBits.mp hx
  have htops : ∀ top : Fin 32, bech32Feedback (BitVec.ofNat 32 top) 0 &&& 31 = 0 → top = 0 := by decide +kernel
  have htop : x >>> 25 = BitVec.ofNat 32 (x.toNat / 2^25) := by
    rw [← BitVec.toNat_inj,BitVec.toNat_ushiftRight,Nat.shiftRight_eq_div_pow,BitVec.toNat_ofNat]
    omega
  have hlow : ((x &&& 0x1ffffff) <<< 5) &&& 31 = 0 := by
    rw [← BitVec.toNat_inj,BitVec.toNat_and,BitVec.toNat_shiftLeft,Nat.shiftLeft_eq]
    refine (Nat.and_two_pow_sub_one_eq_mod _ 5).trans ?_
    change _ = 0
    omega
  have hzero : x.toNat / 2^25 = 0 := by
    have hsplit := bech32Feedback_add (x >>> 25) 0 ((x &&& 0x1ffffff) <<< 5)
    have hstep : bech32Register.step x = bech32Feedback (x >>> 25) 0 ^^^ ((x &&& 0x1ffffff) <<< 5) := by
      rw [← hsplit,BitVec.ofNat_eq_ofNat,BitVec.zero_xor]
      rfl
    rw [h,htop] at hstep
    have hmasked := congrArg (· &&& (31 : BitVec 32)) hstep
    simp only [and_xor_distrib_right,hlow] at hmasked
    have htopLt : x.toNat / 2^25 < 32 := by omega
    have hfin := htops ⟨x.toNat / 2^25,htopLt⟩ (by simpa using hmasked.symm)
    exact congrArg Fin.val hfin
  have hsmall : x.toNat < 2^25 := by omega
  have hmoved := step_of_small hsmall
  rw [h] at hmoved
  rw [← BitVec.toNat_inj]
  change x.toNat = 0
  change 0 = x.toNat * 32 at hmoved
  omega

def symbolErrors : Set (BitVec 32) := {e | 0 < e.toNat ∧ e.toNat < 32}

theorem symbols_orbit : ((List.range 31).all fun i =>
    (List.iterate bech32Register.step (BitVec.ofNat 32 (i + 1)) 59).tail.all fun y => decide (32 ≤ y.toNat)) = true := by
  decide +kernel

theorem symbolErrors_apart {e : BitVec 32} (he : e ∈ symbolErrors) {d : ℕ} (hpos : 0 < d) (hlt : d < 59) :
    bech32Register.step^[d] e ∉ symbolErrors := by
  obtain ⟨hlow,hhigh⟩ := he
  have hnum : BitVec.ofNat 32 (e.toNat - 1 + 1) = e := by
    rw [Nat.sub_add_cancel hlow,BitVec.ofNat_toNat,BitVec.setWidth_eq]
  have hmem : bech32Register.step^[d] e ∈ (List.iterate bech32Register.step e 59).tail := by
    rw [List.iterate,List.tail_cons,List.mem_iterate]
    exact ⟨d - 1,by omega,by rw [← Function.iterate_succ_apply,Nat.succ_eq_add_one,Nat.sub_add_cancel hpos]⟩
  have horbit := List.all_eq_true.mp symbols_orbit (e.toNat - 1) (List.mem_range.mpr (by omega))
  rw [hnum] at horbit
  have hbig := of_decide_eq_true (List.all_eq_true.mp horbit _ hmem)
  rintro ⟨-,hsmall⟩
  omega

theorem bech32Register_separates : bech32Register.Separates thirtyBits symbolErrors 59 where
  xor_mem x hx y hy := xor_mem_thirtyBits hx hy
  step_mem x _ := step_mem_thirtyBits x
  kernel x hx h := step_kernel hx h
  symbols e he := mem_thirtyBits.mpr (he.2.trans (by decide))
  nonzero h := absurd h.1 (by decide)
  apart e he d hpos hlt := symbolErrors_apart he hpos hlt

theorem registerSymbols_append (us vs : Bytes) : registerSymbols (us ++ vs) = registerSymbols us ++ registerSymbols vs := List.map_append

theorem toNat_symbol (v : UInt8) : (BitVec.ofNat 32 v.toNat).toNat = v.toNat := by
  have hlt := v.toNat_lt
  rw [BitVec.toNat_ofNat]
  omega

theorem two_pow_mul_xor (a : ℕ) {n : ℕ} (h : b < 2^n) : 2^n * a ^^^ b = 2^n * a + b := by
  apply Nat.eq_of_testBit_eq
  intro i
  rw [Nat.testBit_xor,Nat.testBit_two_pow_mul,Nat.testBit_two_pow_mul_add a h]
  by_cases hi : i < n
  · simp [hi,not_le.mpr hi]
  · have hhigh : b.testBit i = false := Nat.testBit_lt_two_pow (h.trans_le (Nat.pow_le_pow_right (by decide) (not_lt.mp hi)))
    simp [hi,hhigh,not_lt.mp hi]

theorem run_six (hcs : ∀ v ∈ cs, v.toNat < 2^5) (hlength : cs.length ≤ 6) :
    (bech32Register.run 0 (registerSymbols cs)).toNat = symbolsValue 5 cs := by
  induction cs using List.reverseRecOn with
  | nil => rfl
  | append_singleton cs v ih =>
    rw [List.forall_mem_append,List.forall_mem_singleton] at hcs
    rw [List.length_append,List.length_singleton] at hlength
    have hlow := ih hcs.1 (by omega)
    have hsmall : symbolsValue 5 cs < 2^25 :=
      (symbolsValue_lt hcs.1).trans_le (Nat.pow_le_pow_right (by decide) (by omega))
    have hstep := step_of_small (hlow ▸ hsmall)
    have hdisjoint : symbolsValue 5 cs * 32 ^^^ v.toNat = symbolsValue 5 cs * 2^5 + v.toNat := by
      rw [Nat.mul_comm,Nat.mul_comm _ (2^5)]
      exact two_pow_mul_xor _ hcs.2
    rw [registerSymbols_append,ShiftRegister.run_append]
    change (bech32Register.step _ ^^^ BitVec.ofNat 32 v.toNat).toNat = _
    rw [BitVec.toNat_xor,hstep,hlow,toNat_symbol,hdisjoint,symbolsValue_concat]

/-- What the register holds after six more symbols. -/
theorem bech32Polymod_append {values : Bytes} (hcs : ∀ v ∈ cs, v.toNat < 2^5) (hlength : cs.length = 6) :
    bech32Polymod (values ++ cs) = bech32Polymod (values ++ List.replicate 6 0) ^^^ BitVec.ofNat 32 (symbolsValue 5 cs) := by
  have hrun : ∀ us : Bytes, us.length = 6 → bech32Polymod (values ++ us) =
      bech32Register.run 0 (registerSymbols us) ^^^ bech32Register.step^[6] (bech32Polymod values) := by
    intro us hus
    have hmove := bech32Register.run_xor 0#32 (bech32Polymod values) (registerSymbols us)
    rw [BitVec.zero_xor,registerSymbols,List.length_map,hus] at hmove
    rw [bech32Polymod_eq (values ++ us),registerSymbols_append,ShiftRegister.run_append,← bech32Polymod_eq]
    exact hmove
  have hzeros : bech32Register.run 0 (registerSymbols (List.replicate 6 0)) = 0#32 := by decide
  have hpacked : bech32Register.run 0 (registerSymbols cs) = BitVec.ofNat 32 (symbolsValue 5 cs) := by
    have hsix := run_six hcs hlength.le
    rw [← hsix,BitVec.ofNat_toNat,BitVec.setWidth_eq]
  rw [hrun cs hlength,hrun _ List.length_replicate,hzeros,BitVec.zero_xor,hpacked,BitVec.xor_comm]

def bech32Checksum (hrp data : Bytes) : Bytes :=
  symbolsOf 5 6 (bech32Polymod (bech32Expand hrp ++ data ++ List.replicate 6 0) ^^^ bech32mConstant).toNat

theorem polymod_mem_thirtyBits (values : Bytes) : bech32Polymod values ∈ thirtyBits := by
  have hsymbol : ∀ v : UInt8, BitVec.ofNat 32 v.toNat ∈ thirtyBits := by
    intro v
    have hlt := v.toNat_lt
    rw [mem_thirtyBits,toNat_symbol]
    omega
  rw [bech32Polymod_eq,ShiftRegister.run]
  refine List.foldlRecOn _ _ (mem_thirtyBits.mpr (by decide)) ?_
  intro x _ v hv
  obtain ⟨u,-,rfl⟩ := List.mem_map.mp hv
  exact xor_mem_thirtyBits (step_mem_thirtyBits x) (hsymbol u)

/-- The checksum is right exactly on the symbols that `bech32mEncode` adds. -/
theorem bech32Polymod_eq_constant (hcs : ∀ v ∈ cs, v.toNat < 2^5) (hlength : cs.length = 6) :
    bech32Polymod (bech32Expand hrp ++ (data ++ cs)) = bech32mConstant ↔ cs = bech32Checksum hrp data := by
  have hbound : (bech32Polymod (bech32Expand hrp ++ data ++ List.replicate 6 0) ^^^ bech32mConstant).toNat < 2^(5 * 6) :=
    mem_thirtyBits.mp (xor_mem_thirtyBits (polymod_mem_thirtyBits _) (mem_thirtyBits.mpr (by decide)))
  have hvalue : symbolsValue 5 cs < 2^32 :=
    (symbolsValue_lt hcs).trans_le (Nat.pow_le_pow_right (by decide) (by omega))
  rw [← List.append_assoc,bech32Polymod_append hcs hlength,bech32Checksum]
  generalize bech32Polymod (bech32Expand hrp ++ data ++ List.replicate 6 0) = p at *
  constructor
  · intro h
    have hnumber : BitVec.ofNat 32 (symbolsValue 5 cs) = p ^^^ bech32mConstant := by
      rw [← h,← BitVec.xor_assoc,BitVec.xor_self,BitVec.zero_xor]
    have hnat := congrArg BitVec.toNat hnumber
    rw [BitVec.toNat_ofNat,Nat.mod_eq_of_lt hvalue] at hnat
    rw [← hnat,← hlength,symbolsOf_symbolsValue hcs]
  · intro h
    rw [h,symbolsValue_symbolsOf (by decide) hbound,BitVec.ofNat_toNat,BitVec.setWidth_eq,← BitVec.xor_assoc,BitVec.xor_self,
      BitVec.zero_xor]

end Checksum

section Texts

def bech32Char (v : UInt8) : UInt8 := bech32Alphabet.getD v.toNat 0

theorem length_bech32Alphabet : bech32Alphabet.length = 32 := by decide

variable {s : Bytes}

theorem forall_symbol {p : UInt8 → Prop} (h : ∀ i : Fin 32, p (UInt8.ofNat i)) (hv : v.toNat < 2^5) : p v := by
  have hp := h ⟨v.toNat,hv⟩
  rwa [UInt8.ofNat_toNat] at hp

theorem bech32Symbol_eq (hv : v.toNat < 2^5) : bech32Symbol v.toNat = .ok (bech32Char v) := by
  have hlt : v.toNat < bech32Alphabet.length := by rwa [length_bech32Alphabet]
  rw [bech32Symbol,bech32Char,List.getElem?_eq_getElem hlt,List.getD_eq_getElem _ _ hlt]

theorem bech32Char_plain (hv : v.toNat < 2^5) :
    Text.lowerByte (bech32Char v) = bech32Char v ∧ bech32Char v ≠ 49 ∧ ¬ (bech32Char v < 33 ∨ bech32Char v > 126) := by
  refine forall_symbol (p := fun v => Text.lowerByte (bech32Char v) = bech32Char v ∧ bech32Char v ≠ 49 ∧
    ¬ (bech32Char v < 33 ∨ bech32Char v > 126)) ?_ hv
  decide +kernel

theorem exists_bech32Char {x : UInt8} (hx : x ∈ bech32Alphabet) : ∃ v : UInt8, v.toNat < 2^5 ∧ x = bech32Char v := by
  obtain ⟨n,hn,rfl⟩ := List.getElem_of_mem hx
  have hlt : n < 32 := length_bech32Alphabet ▸ hn
  have hnum : (UInt8.ofNat n).toNat = n := UInt8.toNat_ofNat_of_lt' (hlt.trans (by decide))
  exact ⟨UInt8.ofNat n,hnum.trans_lt hlt,by rw [bech32Char,hnum,List.getD_eq_getElem _ _ hn]⟩

theorem bech32Value_char (hv : v.toNat < 2^5) : bech32Value (bech32Char v) = .ok v := by
  have hindex : bech32Alphabet.idxOf? (bech32Char v) = some v.toNat := by
    refine forall_symbol (p := fun v => bech32Alphabet.idxOf? (bech32Char v) = some v.toNat) ?_ hv
    decide +kernel
  simp only [bech32Value,hindex,UInt8.ofNat_toNat]

theorem bech32Value_eq_ok {b : UInt8} : bech32Value b = .ok v ↔ v.toNat < 2^5 ∧ b = bech32Char v := by
  constructor
  · intro h
    rw [bech32Value] at h
    split at h
    · rename_i i hi
      obtain rfl := Except.ok.inj h
      obtain ⟨hlt,hget,-⟩ := List.idxOf?_eq_some_iff.mp hi
      rw [length_bech32Alphabet] at hlt
      have hnum : (UInt8.ofNat i).toNat = i := UInt8.toNat_ofNat_of_lt' (hlt.trans (by decide))
      rw [bech32Char,hnum,List.getD_eq_getElem _ _ (by rwa [length_bech32Alphabet])]
      exact ⟨hlt,hget.symm⟩
    · cases h
  · rintro ⟨hv,rfl⟩
    exact bech32Value_char hv

theorem mapM_bech32Symbol (hdata : ∀ v ∈ data, v.toNat < 2^5) :
    (data.mapM fun v => bech32Symbol v.toNat) = .ok (data.map bech32Char) := by
  rw [mapM_eq_ok,List.forall₂_map_right_iff,List.forall₂_same]
  intro v hv
  exact bech32Symbol_eq (hdata v hv)

theorem mapM_bech32Value : s.mapM bech32Value = .ok data ↔ (∀ v ∈ data, v.toNat < 2^5) ∧ s = data.map bech32Char := by
  rw [mapM_eq_ok]
  constructor
  · intro h
    induction h with
    | nil => exact ⟨fun v hv => (List.not_mem_nil hv).elim,rfl⟩
    | cons hhead _ ih =>
      obtain ⟨hv,rfl⟩ := bech32Value_eq_ok.mp hhead
      exact ⟨List.forall_mem_cons.mpr ⟨hv,ih.1⟩,by rw [List.map_cons,← ih.2]⟩
  · rintro ⟨hdata,rfl⟩
    rw [List.forall₂_map_left_iff,List.forall₂_same]
    intro v hv
    exact bech32Value_char (hdata v hv)

def bech32Text (hrp data : Bytes) : Bytes := hrp ++ 49 :: (data ++ bech32Checksum hrp data).map bech32Char

theorem checksum_lt (hrp data : Bytes) : ∀ v ∈ bech32Checksum hrp data, v.toNat < 2^5 := symbolsOf_lt (by decide)

@[simp] theorem length_bech32Checksum (hrp data : Bytes) : (bech32Checksum hrp data).length = 6 := length_symbolsOf 5 6 _

theorem bech32mEncode_eq (hrp : Bytes) (hdata : ∀ v ∈ data, v.toNat < 2^5) :
    bech32mEncode hrp data = .ok (bech32Text hrp data) := by
  have hchecksum : ([5,4,3,2,1,0].mapM fun i => bech32Symbol
      ((bech32Polymod (bech32Expand hrp ++ data ++ List.replicate 6 0) ^^^ bech32mConstant) >>> (5 * i) &&& 31).toNat) =
        .ok ((bech32Checksum hrp data).map bech32Char) := by
    generalize hx : bech32Polymod (bech32Expand hrp ++ data ++ List.replicate 6 0) ^^^ bech32mConstant = x
    have hdigits : bech32Checksum hrp data = [5,4,3,2,1,0].map fun i => UInt8.ofNat (x >>> (5 * i) &&& 31).toNat := by
      have hsymbol : ∀ i, (x >>> (5 * i) &&& 31).toNat = x.toNat / (2^5)^i % 2^5 := by
        intro i
        rw [BitVec.toNat_and,BitVec.toNat_ushiftRight,Nat.shiftRight_eq_div_pow,← pow_mul]
        exact Nat.and_two_pow_sub_one_eq_mod _ 5
      simp only [hsymbol,bech32Checksum,hx,symbolsOf,Radix.digits_cons]
      rfl
    have hsmall : ∀ i, (x >>> (5 * i) &&& 31).toNat < 2^5 := by
      intro i
      rw [BitVec.toNat_and]
      exact Nat.and_lt_two_pow _ (by decide)
    rw [hdigits,List.map_map,mapM_eq_ok,List.forall₂_map_right_iff,List.forall₂_same]
    intro i _
    have hbyte : (UInt8.ofNat (x >>> (5 * i) &&& 31).toNat).toNat = (x >>> (5 * i) &&& 31).toNat :=
      UInt8.toNat_ofNat_of_lt' ((hsmall i).trans (by decide))
    have hsymbol := bech32Symbol_eq (hbyte.symm ▸ hsmall i)
    rwa [hbyte] at hsymbol
  rw [bech32mEncode,mapM_bech32Symbol hdata,ok_bind,hchecksum,ok_bind,bech32Text,List.map_append]
  rfl

theorem lower_bech32Text (hhrp : Text.lower hrp = hrp) (hdata : ∀ v ∈ data, v.toNat < 2^5) :
    Text.lower (bech32Text hrp data) = bech32Text hrp data := by
  have hsymbols : ∀ v ∈ data ++ bech32Checksum hrp data, (Text.lowerByte ∘ bech32Char) v = bech32Char v := by
    intro v hv
    rcases List.mem_append.mp hv with hv | hv
    · exact (bech32Char_plain (hdata v hv)).1
    · exact (bech32Char_plain (checksum_lt hrp data v hv)).1
  rw [Text.lower] at hhrp
  rw [Text.lower,bech32Text,List.map_append,hhrp,List.map_cons,List.map_map,List.map_congr_left hsymbols]
  rfl

/-- What `bech32mDecode` accepts: texts of one letter case that spell the symbols it returns. -/
theorem bech32mDecode_eq_ok : bech32mDecode s = .ok (hrp, data) ↔ 8 ≤ s.length ∧ s.length ≤ 90 ∧
    (s = Text.lower s ∨ s = Text.upper s) ∧ (∀ b ∈ s, ¬ (b < 33 ∨ b > 126)) ∧ hrp ≠ [] ∧ (∀ v ∈ data, v.toNat < 2^5) ∧
    Text.lower s = bech32Text hrp data := by
  have hform : ¬ (s.length < 8 ∨ s.length > 90 ∨ (s ≠ Text.lower s ∧ s ≠ Text.upper s)) ↔
      8 ≤ s.length ∧ s.length ≤ 90 ∧ (s = Text.lower s ∨ s = Text.upper s) := by
    simp only [not_or,not_lt,not_and_or,not_not]
  have hprintable : (¬ ∃ b ∈ s, b < 33 ∨ b > 126) ↔ ∀ b ∈ s, ¬ (b < 33 ∨ b > 126) := by
    simp only [not_exists,not_and]
  rw [bech32mDecode,bind_unit_eq_ok,rejectIf_eq_ok,bind_unit_eq_ok,rejectIf_eq_ok,hform,hprintable]
  constructor
  · rintro ⟨⟨hlong,hshort,hcase⟩,hchars,h⟩
    refine ⟨hlong,hshort,hcase,hchars,?_⟩
    dsimp only at h
    split at h
    · cases h
    · rename_i sep hsep
      rw [bind_unit_eq_ok,rejectIf_eq_ok,bind_eq_ok] at h
      obtain ⟨hroom,w,hw,h⟩ := h
      rw [bind_unit_eq_ok,rejectIf_eq_ok,not_not,pure_eq_ok,Prod.mk.injEq] at h
      obtain ⟨hsum,rfl,rfl⟩ := h
      obtain ⟨hlt,hchars⟩ := mapM_bech32Value.mp hw
      rw [not_or,not_lt,not_lt] at hroom
      have hlength : w.length = (Text.lower s).length - (sep + 1) := by
        rw [← List.length_drop,hchars,List.length_map]
      have hlast : (w.drop (w.length - 6)).length = 6 := by
        rw [List.length_drop]
        omega
      have hsplit := List.take_append_drop (w.length - 6) w
      rw [← hsplit,bech32Polymod_eq_constant (fun v hv => hlt v (List.mem_of_mem_drop hv)) hlast] at hsum
      refine ⟨?_,fun v hv => hlt v (List.mem_of_mem_take hv),?_⟩
      · rw [ne_eq,← List.length_eq_zero_iff,List.length_take]
        omega
      · rw [bech32Text,← hsum,hsplit,← hchars]
        exact Text.lastIndexByte_eq_some hsep
  · rintro ⟨hlong,hshort,hcase,hchars,hhrp,hdata,htext⟩
    refine ⟨⟨hlong,hshort,hcase⟩,hchars,?_⟩
    have hall : ∀ v ∈ data ++ bech32Checksum hrp data, v.toNat < 2^5 := List.forall_mem_append.mpr ⟨hdata,checksum_lt hrp data⟩
    have hsep : Text.lastIndexByte (bech32Text hrp data) 49 = some hrp.length := by
      refine Text.lastIndexByte_append ?_
      rw [List.mem_map]
      rintro ⟨v,hv,heq⟩
      exact (bech32Char_plain (hall v hv)).2.1 heq
    have hlength : (bech32Text hrp data).length = hrp.length + data.length + 7 := by
      rw [bech32Text,List.length_append,List.length_cons,List.length_map,List.length_append,length_bech32Checksum]
      omega
    have hhrpLength : hrp.length ≠ 0 := fun h => hhrp (List.length_eq_zero_iff.mp h)
    have hdrop : (bech32Text hrp data).drop (hrp.length + 1) = (data ++ bech32Checksum hrp data).map bech32Char := by
      rw [bech32Text,← List.drop_drop,List.drop_left,List.drop_one,List.tail_cons]
    have htake : (bech32Text hrp data).take hrp.length = hrp := List.take_left
    have hsum := (bech32Polymod_eq_constant (checksum_lt hrp data) (length_bech32Checksum hrp data)).mpr rfl
    have hdataLength : (data ++ bech32Checksum hrp data).length - 6 = data.length := by
      rw [List.length_append,length_bech32Checksum,Nat.add_sub_cancel]
    simp only [htext,hsep]
    rw [rejectIf_of_not (by omega),ok_bind,hdrop,mapM_bech32Value.mpr ⟨hall,rfl⟩,ok_bind,htake,
      rejectIf_of_not (not_not.mpr hsum),ok_bind,hdataLength,List.take_left]
    rfl

end Texts

section Safety

theorem bech32mDecode_returns (s : Bytes) : Returns (bech32mDecode s) := by
  have hvalue : ∀ b, Returns (bech32Value b) := by
    intro b
    rw [bech32Value]
    split
    · exact returns_ok _
    · exact returns_fail _
  rw [bech32mDecode]
  refine (returns_rejectIf _ _).bind fun _ _ => (returns_rejectIf _ _).bind fun _ _ => ?_
  dsimp only
  split
  · exact returns_fail _
  · refine (returns_rejectIf _ _).bind fun _ _ => (returns_mapM fun b _ => hvalue b).bind fun data _ => ?_
    exact (returns_rejectIf _ _).bind fun _ _ => returns_pure _

theorem bech32ConvertBits_returns (data : Bytes) (fromBits toBits : ℕ) (pad : Bool) :
    Returns (bech32ConvertBits data fromBits toBits pad) := by
  have htake : ∀ st v, Returns (bech32Take fromBits toBits st v) :=
    fun st v => (returns_rejectIf _ _).bind fun _ _ => returns_pure _
  rw [bech32ConvertBits]
  refine (returns_foldlM (P := fun _ _ => True) (fun _ v _ st _ _ => ⟨htake st v,fun _ _ => trivial⟩) trivial).bind fun st _ => ?_
  rw [bech32Finish]
  split_ifs
  · exact returns_ok _
  · exact returns_fail _
  · exact returns_ok _

end Safety

end QdayNode
