import QdayNode.Types.CurrencyText

/-!
# Amounts as the wallet shows and reads them

An amount is a decimal number of coins.  `FormatAmount` divides by the unit, a power of ten, and
writes the remainder behind a point without the zeros at its end; `ParseAmount` fills the zeros up
again and hands the digits to the general parser.
-/
namespace QdayNode
open ByteString Text Outcome

variable {k : ℕ} {whole frac : Bytes} {unit v : Currency}

def formatAmount (v unit : Currency) : Outcome Bytes := do
  crashIf (unit.toNat = 0) "division by zero"
  let q := v.toNat / unit.toNat
  let r := v.toNat % unit.toNat
  if r = 0 then pure (decimal q)
  else do
    let decimals := unit.exactString.length - 1
    crashIf (decimals < (decimal r).length) "strings: negative Repeat count"
    pure (decimal q ++ 46 :: (List.replicate (decimals - (decimal r).length) 48 ++ decimal r).rdropWhile (· = 48))

/-- The loop over the runes refuses the same texts as one over the bytes: a byte that is not ASCII
belongs to a rune above the digits. -/
def parseAmount (setRat : Bytes → Option ℚ) (str : Bytes) (unit : Currency) : Outcome Currency := do
  let decimals := unit.exactString.length - 1
  let p := str.splitOn 46
  rejectIf (p.length > 2 ∨ str.length > 80 ∨ (p.getD 0 []).length = 0) "invalid amount"
  let frac := if p.length = 2 then p.getD 1 [] else []
  rejectIf (frac.length > decimals) "too many decimal places"
  let digits := p.getD 0 [] ++ frac ++ List.replicate (decimals - frac.length) 48
  rejectIf (∃ b ∈ digits, ¬ IsDigit b) "invalid amount"
  parseCurrency setRat digits

/-- A text of digits with at most `k` digits behind a point. -/
structure AmountText (k : ℕ) (s whole frac : Bytes) : Prop where
  form : s = whole ∧ frac = [] ∨ s = whole ++ 46 :: frac
  whole_ne : whole ≠ []
  whole_digits : ∀ b ∈ whole, IsDigit b
  frac_digits : ∀ b ∈ frac, IsDigit b
  frac_length : frac.length ≤ k

def denoted (whole frac : Bytes) : ℚ := decimalValue whole + decimalValue frac / 10^frac.length

def amountParts (s : Bytes) : Bytes × Bytes :=
  ((s.splitOn 46).getD 0 [], if (s.splitOn 46).length = 2 then (s.splitOn 46).getD 1 [] else [])

section Parsing

variable {s : Bytes}

theorem point_not_mem (h : ∀ b ∈ s, IsDigit b) : 46 ∉ s := fun hmem => absurd (h 46 hmem) (by decide)

theorem AmountText.splitOn_eq (h : AmountText k s whole frac) :
    s.splitOn 46 = [whole] ∧ frac = [] ∨ s.splitOn 46 = [whole, frac] := by
  have hwhole := point_not_mem h.whole_digits
  have hfrac := point_not_mem h.frac_digits
  rcases h.form with ⟨rfl,hempty⟩ | hpoint
  · have hsplit := @List.splitOn_intercalate _ [s] _ _ 46 (by simpa using hwhole) (List.cons_ne_nil _ _)
    rw [List.intercalate_singleton] at hsplit
    exact Or.inl ⟨hsplit,hempty⟩
  · have hsplit := @List.splitOn_intercalate _ [whole,frac] _ _ 46 (by simp [hwhole,hfrac]) (List.cons_ne_nil _ _)
    rw [show [46].intercalate [whole,frac] = s by rw [hpoint]; simp [List.intercalate]] at hsplit
    exact Or.inr hsplit

theorem AmountText.parts (h : AmountText k s whole frac) : amountParts s = (whole, frac) := by
  rcases h.splitOn_eq with ⟨hsplit,rfl⟩ | hsplit
  · rw [amountParts,hsplit]
    rfl
  · rw [amountParts,hsplit]
    rfl

theorem amountParts_form (hparts : (s.splitOn 46).length ≤ 2) :
    s = (amountParts s).1 ∧ (amountParts s).2 = [] ∨ s = (amountParts s).1 ++ 46 :: (amountParts s).2 := by
  have hjoin := @List.intercalate_splitOn _ s _ _ 46
  rw [amountParts]
  generalize s.splitOn 46 = p at hparts hjoin
  match p, hparts with
  | [], _ => exact Or.inl ⟨hjoin.symm,rfl⟩
  | [whole], _ => exact Or.inl ⟨by simpa [List.intercalate] using hjoin.symm,rfl⟩
  | [whole,frac], _ => exact Or.inr (by simpa [List.intercalate] using hjoin.symm)

def amountDigits (k : ℕ) (s : Bytes) : Bytes :=
  (amountParts s).1 ++ (amountParts s).2 ++ List.replicate (k - (amountParts s).2.length) 48

theorem exactString_pow (hunit : unit.toNat = 10^k) : unit.exactString.length - 1 = k := by
  rw [Currency.exactString,hunit,length_decimal_pow,Nat.add_sub_cancel]

theorem isDigit_zeros (n : ℕ) : ∀ b ∈ List.replicate n (48 : UInt8), IsDigit b := by
  intro b hb
  rw [List.eq_of_mem_replicate hb]
  decide

theorem parseAmount_eq_ok {setRat : Bytes → Option ℚ} (hunit : unit.toNat = 10^k) (hs : s.length ≤ 80) :
    parseAmount setRat s unit = .ok v ↔
      ∃ whole frac, AmountText k s whole frac ∧ v.toNat = (decimalValue whole * 10^frac.length + decimalValue frac) * 10^(k - frac.length) := by
  have hvalue : ∀ whole frac : Bytes, decimalValue (whole ++ frac ++ List.replicate (k - frac.length) 48) =
      (decimalValue whole * 10^frac.length + decimalValue frac) * 10^(k - frac.length) := by
    intro whole frac
    rw [decimalValue_append,decimalValue_append,decimalValue_zeros,List.length_replicate,Nat.add_zero]
  rw [parseAmount,exactString_pow hunit]
  dsimp only
  rw [bind_unit_eq_ok,rejectIf_eq_ok,bind_unit_eq_ok,rejectIf_eq_ok,bind_unit_eq_ok,
    rejectIf_eq_ok]
  constructor
  · rintro ⟨hform,hfrac,hdigits,hparse⟩
    rw [not_or,not_or,List.length_eq_zero_iff] at hform
    have hall : ∀ b ∈ amountDigits k s, IsDigit b := by
      intro b hb
      by_contra hbad
      exact hdigits ⟨b,hb,hbad⟩
    rw [amountDigits,List.forall_mem_append,List.forall_mem_append] at hall
    have htext : AmountText k s (amountParts s).1 (amountParts s).2 :=
      ⟨amountParts_form (not_lt.mp hform.1),hform.2.2,hall.1.1,hall.1.2,not_lt.mp hfrac⟩
    rw [parseCurrency_digits setRat _ (by simpa only [not_exists,not_and,not_not] using hdigits)] at hparse
    · exact ⟨_,_,htext,hparse.trans (hvalue _ _)⟩
    · intro hnil
      rw [List.append_assoc,List.append_eq_nil_iff] at hnil
      exact hform.2.2 hnil.1
  · rintro ⟨whole,frac,htext,hv⟩
    have hwhole : (s.splitOn 46).getD 0 [] = whole := congrArg Prod.fst htext.parts
    have hfrac : (if (s.splitOn 46).length = 2 then (s.splitOn 46).getD 1 [] else []) = frac := congrArg Prod.snd htext.parts
    have hcount : (s.splitOn 46).length ≤ 2 := by
      rcases htext.splitOn_eq with ⟨hsplit,-⟩ | hsplit
      · rw [hsplit,List.length_singleton]
        decide
      · rw [hsplit]
        exact le_rfl
    have hall : ∀ b ∈ whole ++ frac ++ List.replicate (k - frac.length) 48, IsDigit b := by
      rw [List.forall_mem_append,List.forall_mem_append]
      exact ⟨⟨htext.whole_digits,htext.frac_digits⟩,isDigit_zeros _⟩
    rw [hwhole,hfrac]
    refine ⟨?_,not_lt.mpr htext.frac_length,?_,?_⟩
    · rw [not_or,not_or,not_lt,not_lt,List.length_eq_zero_iff]
      exact ⟨hcount,hs,htext.whole_ne⟩
    · rintro ⟨b,hb,hbad⟩
      exact hbad (hall b hb)
    · rw [parseCurrency_digits setRat _ hall,hv,hvalue]
      intro hnil
      rw [List.append_assoc,List.append_eq_nil_iff] at hnil
      exact htext.whole_ne hnil.1

end Parsing

section Formatting

theorem rdropWhile_zeros (s : Bytes) : ∃ j, s = s.rdropWhile (· = 48) ++ List.replicate j 48 := by
  have hsplit := @List.rdropWhile_append_rtakeWhile _ (fun b : UInt8 => decide (b = 48)) s
  have hzeros : s.rtakeWhile (fun b => decide (b = 48)) = List.replicate (s.rtakeWhile fun b => decide (b = 48)).length 48 := by
    rw [List.eq_replicate_iff]
    refine ⟨rfl,?_⟩
    intro b hb
    have hzero := List.mem_rtakeWhile_imp hb
    exact of_decide_eq_true hzero
  exact ⟨_,by rw [← hzeros,hsplit]⟩

theorem exponent_le (hunit : unit.toNat = 10^k) : k ≤ 38 := by
  have hlt := unit.toNat_lt
  by_contra hbig
  have hpow : 10^39 ≤ 10^k := Nat.pow_le_pow_right (by decide) (by omega)
  omega

theorem length_whole (v : Currency) (n : ℕ) : (decimal (v.toNat / n)).length ≤ 39 := by
  have hlt := v.toNat_lt
  have hle := Nat.div_le_self v.toNat n
  exact length_decimal_le (by decide) (by omega)

/-- What `FormatAmount` writes is an amount with the value it was given. -/
theorem formatAmount_text (hunit : unit.toNat = 10^k) (v : Currency) : ∃ s whole frac, formatAmount v unit = .ok s ∧
    AmountText k s whole frac ∧ s.length ≤ 80 ∧
    v.toNat = (decimalValue whole * 10^frac.length + decimalValue frac) * 10^(k - frac.length) := by
  have hpos : 0 < 10^k := pow_pos (by decide) k
  have hwhole := length_whole v (10^k)
  have hk := exponent_le hunit
  have hdiv := Nat.div_add_mod v.toNat (10^k)
  rw [formatAmount,hunit,crashIf,if_neg hpos.ne',ok_bind]
  by_cases hr : v.toNat % 10^k = 0
  · refine ⟨decimal (v.toNat / 10^k),decimal (v.toNat / 10^k),[],?_,?_,by omega,?_⟩
    · dsimp only
      rw [if_pos hr]
      rfl
    · exact ⟨Or.inl ⟨rfl,rfl⟩,decimal_ne_nil _,decimal_isDigit _,fun b hb => (List.not_mem_nil hb).elim,Nat.zero_le k⟩
    · rw [decimalValue_decimal,List.length_nil,pow_zero,Nat.mul_one,Nat.sub_zero]
      change _ = (v.toNat / 10^k + 0) * 10^k
      rw [Nat.add_zero,Nat.mul_comm]
      omega
  · have hlt := Nat.mod_lt v.toNat hpos
    have hkpos : 0 < k := by
      rcases Nat.eq_zero_or_pos k with rfl | hkpos
      · rw [pow_zero,Nat.mod_one] at hr
        exact (hr rfl).elim
      · exact hkpos
    have hlength := length_decimal_le hkpos hlt
    generalize hfull : List.replicate (k - (decimal (v.toNat % 10^k)).length) 48 ++ decimal (v.toNat % 10^k) = full
    have hfullLength : full.length = k := by
      rw [← hfull,List.length_append,List.length_replicate]
      omega
    have hfullValue : decimalValue full = v.toNat % 10^k := by
      rw [← hfull,decimalValue_append,decimalValue_zeros,Nat.zero_mul,Nat.zero_add,decimalValue_decimal]
    have hfullDigits : ∀ b ∈ full, IsDigit b := by
      rw [← hfull,List.forall_mem_append]
      exact ⟨isDigit_zeros _,decimal_isDigit _⟩
    obtain ⟨j,hj⟩ := rdropWhile_zeros full
    have hcut : k - (full.rdropWhile (· = 48)).length = j := by
      have hlengths := congrArg List.length hj
      rw [List.length_append,List.length_replicate,hfullLength] at hlengths
      omega
    have hlead := List.rdropWhile_prefix (fun b : UInt8 => decide (b = 48)) full
    have hfrac : (full.rdropWhile (· = 48)).length ≤ k := hfullLength ▸ hlead.length_le
    have hfracValue : decimalValue (full.rdropWhile (· = 48)) * 10^j = v.toNat % 10^k := by
      rw [← hfullValue]
      conv_rhs => rw [hj]
      rw [decimalValue_append,decimalValue_zeros,List.length_replicate,Nat.add_zero]
    refine ⟨decimal (v.toNat / 10^k) ++ 46 :: full.rdropWhile (· = 48),decimal (v.toNat / 10^k),full.rdropWhile (· = 48),?_,?_,?_,?_⟩
    · dsimp only
      rw [if_neg hr,exactString_pow hunit,crashIf,if_neg (by omega),ok_bind,hfull]
      rfl
    · exact ⟨Or.inr rfl,decimal_ne_nil _,decimal_isDigit _,fun b hb => hfullDigits b (hlead.subset hb),hfrac⟩
    · rw [List.length_append,List.length_cons]
      omega
    · rw [decimalValue_decimal,hcut,Nat.add_mul,hfracValue,Nat.mul_assoc,← pow_add,show (full.rdropWhile (· = 48)).length + j = k by omega,
        Nat.mul_comm (v.toNat / 10^k)]
      exact hdiv.symm

end Formatting

theorem denoted_mul (h : frac.length ≤ k) :
    (((decimalValue whole * 10^frac.length + decimalValue frac) * 10^(k - frac.length) : ℕ) : ℚ) = denoted whole frac * 10^k := by
  have hpow : (10 : ℚ)^k = 10^frac.length * 10^(k - frac.length) := by rw [← pow_add,Nat.add_sub_cancel' h]
  have hne : (10 : ℚ)^frac.length ≠ 0 := pow_ne_zero _ (by norm_num)
  rw [denoted,hpow]
  push_cast
  field_simp

/-- Amounts are read back as they were written, and a text of at most 80 bytes is accepted exactly
if it is a decimal number, has no more digits behind its point than the unit has zeros and denotes
a quantity of 128 bits, which is then the result. -/
theorem parseAmount_exact (setRat : Bytes → Option ℚ) (unit : Currency) (k : ℕ) (hunit : unit.toNat = 10^k) :
    (∀ v, ∃ s, formatAmount v unit = .ok s ∧ parseAmount setRat s unit = .ok v) ∧
    ∀ s : Bytes, s.length ≤ 80 →
      ((∃ v, parseAmount setRat s unit = .ok v) ↔ ∃ whole frac, AmountText k s whole frac ∧ denoted whole frac * unit.toNat < 2^128) ∧
      ∀ v whole frac, parseAmount setRat s unit = .ok v → AmountText k s whole frac → (v.toNat : ℚ) = denoted whole frac * unit.toNat := by
  have hcast : (unit.toNat : ℚ) = 10^k := by
    rw [hunit]
    push_cast
    rfl
  constructor
  · intro v
    obtain ⟨s,whole,frac,hformat,htext,hshort,hv⟩ := formatAmount_text hunit v
    exact ⟨s,hformat,(parseAmount_eq_ok hunit hshort).mpr ⟨whole,frac,htext,hv⟩⟩
  · intro s hs
    refine ⟨⟨?_,?_⟩,?_⟩
    · rintro ⟨v,hparse⟩
      obtain ⟨whole,frac,htext,hv⟩ := (parseAmount_eq_ok hunit hs).mp hparse
      refine ⟨whole,frac,htext,?_⟩
      rw [hcast,← denoted_mul htext.frac_length,← hv]
      exact_mod_cast v.toNat_lt
    · rintro ⟨whole,frac,htext,hlt⟩
      rw [hcast,← denoted_mul htext.frac_length] at hlt
      obtain ⟨v,hv⟩ := Currency.exists_toNat (by exact_mod_cast hlt)
      exact ⟨v,(parseAmount_eq_ok hunit hs).mpr ⟨whole,frac,htext,hv⟩⟩
    · intro v whole frac hparse htext
      obtain ⟨whole',frac',htext',hv⟩ := (parseAmount_eq_ok hunit hs).mp hparse
      have hsame := htext'.parts.symm.trans htext.parts
      rw [Prod.mk.injEq] at hsame
      rw [hcast,← denoted_mul htext.frac_length,hv,hsame.1,hsame.2]

theorem parseAmount_exact_coin : ∃ s, formatAmount (Currency.newCurrency64 5) Currency.hastingsPerSiacoin = .ok s ∧
    parseAmount (fun _ => none) s Currency.hastingsPerSiacoin = .ok (Currency.newCurrency64 5) :=
  (parseAmount_exact (fun _ => none) Currency.hastingsPerSiacoin 24 (by decide)).1 (Currency.newCurrency64 5)

end QdayNode
