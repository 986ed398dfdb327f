import QdayNode.Types.Basic
import QdayNode.Library.Text

/-!
# Texts of quantities

`ParseCurrency` takes a whole number, or a number in one of the larger units.  The second kind
is read by `big.Rat`, which lives outside the repository and enters as a parameter.
-/
namespace QdayNode
open ByteString Text Outcome

variable {s : Bytes}

def bigSetString (s : Bytes) : Option ℤ :=
  let whole (t : Bytes) : Option ℤ := if t ≠ [] ∧ ∀ b ∈ t, IsDigit b then some (decimalValue t) else none
  match s with
  | 43 :: t => whole t
  | 45 :: t => (whole t).map fun i => -i
  | t => whole t

def bigString (i : ℤ) : Bytes := if i < 0 then 45 :: decimal i.natAbs else decimal i.natAbs

def Currency.ofBig (n : ℕ) : Currency := ⟨UInt64.ofNat n, UInt64.ofNat (n / 2^64)⟩

def Currency.exactString (c : Currency) : Bytes := decimal c.toNat

def parseHastings (s : Bytes) : Outcome Currency :=
  match bigSetString s with
  | none => fail "not an integer"
  | some i => do
      rejectIf (i < 0) "value cannot be negative"
      rejectIf (2^128 ≤ i) "value overflows Currency representation"
      pure (Currency.ofBig i.toNat)

def currencyUnits : List (Bytes × ℕ) :=
  [(ascii "pS", 12), (ascii "nS", 15), (ascii "uS", 18), (ascii "mS", 21), (ascii "SC", 24), (ascii "KS", 27), (ascii "MS", 30),
    (ascii "GS", 33), (ascii "TS", 36)]

def IsNumeric (b : UInt8) : Prop := IsDigit b ∨ b = 46

instance : DecidablePred IsNumeric := fun b => inferInstanceAs (Decidable (IsDigit b ∨ b = 46))

/-- `setRat` stands for `new(big.Rat).SetString`. -/
def parseCurrency (setRat : Bytes → Option ℚ) (s : Bytes) : Outcome Currency := do
  let n := s.rdropWhile fun b => ¬ IsNumeric b
  rejectIf (n = []) "not a number"
  let unit := trimSpace (s.rtakeWhile fun b => ¬ IsNumeric b)
  if unit = [] ∨ unit = ascii "H" then parseHastings n
  else
    match setRat n with
    | none => fail "not a number"
    | some r =>
      match currencyUnits.lookup unit with
      | none => fail "invalid unit"
      | some e => do
          let r := r * 10^e
          rejectIf (r.den ≠ 1) "not an integer"
          parseHastings (bigString r.num)

theorem Currency.toNat_ofBig {n : ℕ} (h : n < 2^128) : (Currency.ofBig n).toNat = n := by
  rw [Currency.ofBig,Currency.toNat,Word64.join,Word64.toNat_ofNat_of_lt (by omega),UInt64.toNat_ofNat']
  omega

theorem bigSetString_digits (hne : s ≠ []) (hs : ∀ b ∈ s, IsDigit b) : bigSetString s = some (decimalValue s : ℤ) := by
  cases s with
  | nil => exact (hne rfl).elim
  | cons b t =>
    have hplus : b ≠ 43 := by
      rintro rfl
      exact absurd (hs 43 List.mem_cons_self) (by decide)
    have hminus : b ≠ 45 := by
      rintro rfl
      exact absurd (hs 45 List.mem_cons_self) (by decide)
    rw [bigSetString]
    · exact if_pos ⟨hne,hs⟩
    · intro u heq
      exact hplus (List.cons.inj heq).1
    · intro u heq
      exact hminus (List.cons.inj heq).1

theorem parseCurrency_digits (setRat : Bytes → Option ℚ) (hne : s ≠ []) (hs : ∀ b ∈ s, IsDigit b) {v : Currency} :
    parseCurrency setRat s = .ok v ↔ v.toNat = decimalValue s := by
  have hnumeric : ∀ b ∈ s, decide (¬ IsNumeric b) = false := by
    intro b hb
    rw [decide_eq_false_iff_not,not_not]
    exact Or.inl (hs b hb)
  have hnumber : (s.rdropWhile fun b => ¬ IsNumeric b) = s := by
    rw [List.rdropWhile_eq_self_iff]
    intro hne
    rw [Bool.not_eq_true]
    exact hnumeric _ (List.getLast_mem hne)
  have hunit : (s.rtakeWhile fun b => ¬ IsNumeric b) = [] := by
    rw [List.rtakeWhile_eq_nil_iff]
    intro hne
    rw [Bool.not_eq_true]
    exact hnumeric _ (List.getLast_mem hne)
  have hempty : trimSpace [] = [] := rfl
  rw [parseCurrency,hnumber,rejectIf_of_not hne,ok_bind,hunit]
  dsimp only
  rw [if_pos (Or.inl hempty),parseHastings,bigSetString_digits hne hs]
  dsimp only
  rw [bind_unit_eq_ok,rejectIf_eq_ok,bind_unit_eq_ok,rejectIf_eq_ok,pure_eq_ok,Int.toNat_natCast]
  constructor
  · rintro ⟨-,hlt,rfl⟩
    exact Currency.toNat_ofBig (by omega)
  · intro hv
    have hlt := v.toNat_lt
    refine ⟨by omega,by omega,Currency.toNat_inj ?_⟩
    rw [Currency.toNat_ofBig (by omega),hv]

end QdayNode
