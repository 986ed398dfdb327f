import QdayNode.Library.Radix

/-!
# Texts

Texts are byte strings.  This module has the letter case of ASCII texts, the search for a
byte, hexadecimal and decimal texts, white space and the words between it.

White space is recognised by its UTF-8 form.  No continuation byte starts such a form, so a
scan byte by byte finds the same places as one rune by rune.
-/
namespace Text
open ByteString

variable {b : UInt8} {s t u rest : Bytes} {d : ℕ}

section Case

def lowerByte (b : UInt8) : UInt8 := if 65 ≤ b ∧ b ≤ 90 then b + 32 else b

def upperByte (b : UInt8) : UInt8 := if 97 ≤ b ∧ b ≤ 122 then b - 32 else b

def lower (s : Bytes) : Bytes := s.map lowerByte

def upper (s : Bytes) : Bytes := s.map upperByte

@[simp] theorem length_lower (s : Bytes) : (lower s).length = s.length := List.length_map _

@[simp] theorem length_upper (s : Bytes) : (upper s).length = s.length := List.length_map _

theorem forall_byte {p : UInt8 → Prop} [DecidablePred p] (h : ∀ i : Fin 256, p (UInt8.ofFin i)) (b : UInt8) : p b := h b.toFin

theorem upperByte_lowerByte (b : UInt8) : upperByte (lowerByte b) = upperByte b := by
  refine forall_byte (p := fun b => upperByte (lowerByte b) = upperByte b) ?_ b
  decide +kernel

theorem upper_lower (s : Bytes) : upper (lower s) = upper s := by
  simp only [lower,upper,List.map_map,Function.comp_def,upperByte_lowerByte]

end Case

section Search

def lastIndexByte (s : Bytes) (b : UInt8) : Option ℕ := (s.reverse.idxOf? b).map (s.length - 1 - ·)

theorem lastIndexByte_append {pre post : Bytes} (h : b ∉ post) : lastIndexByte (pre ++ b :: post) b = some pre.length := by
  have hrev : (pre ++ b :: post).reverse.idxOf? b = some post.length := by
    rw [List.reverse_append,List.reverse_cons,List.append_assoc,List.idxOf?,List.findIdx?_append]
    have hnone : post.reverse.findIdx? (· == b) = none := by
      rw [List.findIdx?_eq_none_iff]
      intro x hx
      rw [beq_eq_false_iff_ne]
      rintro rfl
      exact h (List.mem_reverse.mp hx)
    rw [hnone,List.singleton_append,List.findIdx?_cons,beq_self_eq_true,List.length_reverse]
    simp
  rw [lastIndexByte,hrev,Option.map_some,List.length_append,List.length_cons]
  congr 1
  omega

theorem lastIndexByte_eq_some {i : ℕ} (h : lastIndexByte s b = some i) : s = s.take i ++ b :: s.drop (i + 1) := by
  rw [lastIndexByte,Option.map_eq_some_iff] at h
  obtain ⟨j,hj,rfl⟩ := h
  rw [List.idxOf?,List.findIdx?_eq_some_iff_getElem] at hj
  obtain ⟨hlt,hget,-⟩ := hj
  rw [List.length_reverse] at hlt
  rw [List.getElem_reverse,beq_iff_eq] at hget
  have hi : s.length - 1 - j < s.length := by omega
  rw [← hget,← List.drop_eq_getElem_cons hi,List.take_append_drop]

end Search

section Hex

def hexValue (b : UInt8) : Option UInt8 :=
  if 48 ≤ b ∧ b ≤ 57 then some (b - 48)
  else if 97 ≤ b ∧ b ≤ 102 then some (b - 87)
  else if 65 ≤ b ∧ b ≤ 70 then some (b - 55)
  else none

def hexDecode : Bytes → Option Bytes
  | [] => some []
  | [_] => none
  | hi :: lo :: rest => do
      let x ← hexValue hi
      let y ← hexValue lo
      let bs ← hexDecode rest
      pure ((x * 16 + y) :: bs)

theorem length_hexDecode {b : Bytes} (h : hexDecode s = some b) : s.length = 2 * b.length := by
  induction s using hexDecode.induct generalizing b with
  | case1 =>
    obtain rfl : [] = b := Option.some.inj h
    rfl
  | case2 => cases h
  | case3 hi lo rest ih =>
    simp only [hexDecode,Option.bind_eq_bind,Option.bind_eq_some_iff,Option.pure_def,Option.some.injEq] at h
    obtain ⟨x,-,y,-,bs,hbs,rfl⟩ := h
    rw [List.length_cons,List.length_cons,List.length_cons,ih hbs]
    omega

def hexDigit (d : UInt8) : UInt8 := if d < 10 then 48 + d else 87 + d

def hexEncode (b : Bytes) : Bytes := b.flatMap fun v => [hexDigit (v / 16), hexDigit (v % 16)]

theorem hexValue_hexDigit (v : UInt8) :
    hexValue (hexDigit (v / 16)) = some (v / 16) ∧ hexValue (hexDigit (v % 16)) = some (v % 16) ∧ v / 16 * 16 + v % 16 = v := by
  refine forall_byte (p := fun v => hexValue (hexDigit (v / 16)) = some (v / 16) ∧ hexValue (hexDigit (v % 16)) = some (v % 16) ∧
    v / 16 * 16 + v % 16 = v) ?_ v
  decide +kernel

theorem hexDecode_hexEncode (b : Bytes) : hexDecode (hexEncode b) = some b := by
  rw [hexEncode]
  induction b with
  | nil => rfl
  | cons v b ih =>
    obtain ⟨hhigh,hlow,hvalue⟩ := hexValue_hexDigit v
    rw [List.flatMap_cons,List.cons_append,List.cons_append,List.nil_append,hexDecode,hhigh,hlow,ih]
    simp only [Option.bind_eq_bind,Option.bind_some,Option.pure_def,hvalue]

theorem hexEncode_injective : Function.Injective hexEncode := by
  intro a b h
  have hsome := hexDecode_hexEncode a
  rw [h,hexDecode_hexEncode] at hsome
  exact (Option.some.inj hsome).symm

end Hex

section Order

def AtMost (s t : Bytes) : Prop := s.map UInt8.toNat ≤ t.map UInt8.toNat

instance : DecidableRel AtMost := fun s t => inferInstanceAs (Decidable (s.map UInt8.toNat ≤ t.map UInt8.toNat))

theorem AtMost.total (s t : Bytes) : AtMost s t ∨ AtMost t s := le_total _ _

theorem AtMost.trans (h : AtMost s t) (h' : AtMost t u) : AtMost s u := le_trans h h'

theorem AtMost.antisymm (h : AtMost s t) (h' : AtMost t s) : s = t :=
  List.map_injective_iff.mpr (fun _ _ => UInt8.toNat_inj.mp) (le_antisymm h h')

end Order

section Spaces

/-- The runes of `unicode.IsSpace` in UTF-8. -/
def spaceRunes : List Bytes :=
  [[0x09], [0x0a], [0x0b], [0x0c], [0x0d], [0x20], [0xc2, 0x85], [0xc2, 0xa0], [0xe1, 0x9a, 0x80],
    [0xe2, 0x80, 0x80], [0xe2, 0x80, 0x81], [0xe2, 0x80, 0x82], [0xe2, 0x80, 0x83], [0xe2, 0x80, 0x84], [0xe2, 0x80, 0x85],
    [0xe2, 0x80, 0x86], [0xe2, 0x80, 0x87], [0xe2, 0x80, 0x88], [0xe2, 0x80, 0x89], [0xe2, 0x80, 0x8a], [0xe2, 0x80, 0xa8],
    [0xe2, 0x80, 0xa9], [0xe2, 0x80, 0xaf], [0xe2, 0x81, 0x9f], [0xe3, 0x80, 0x80]]

/-- The length of the white space rune at the front of a text, zero if there is none. -/
def spaceWidth (s : Bytes) : ℕ :=
  match spaceRunes.find? fun r => r.isPrefixOf s with
  | some r => r.length
  | none => 0

def SpaceFree (s : Bytes) : Prop := ∀ r ∈ spaceRunes, ¬ r <:+: s

def wordEnd (cur : Bytes) : List Bytes := if cur = [] then [] else [cur]

/-- The words in a text; `skip` bytes of a rune are still to be passed over. -/
def fieldsGo : Bytes → (skip : ℕ) → (cur : Bytes) → List Bytes
  | [], _, cur => wordEnd cur
  | _ :: rest, skip+1, cur => fieldsGo rest skip cur
  | b :: rest, 0, cur =>
    match spaceWidth (b :: rest) with
    | 0 => fieldsGo rest 0 (cur ++ [b])
    | w+1 => wordEnd cur ++ fieldsGo rest w []

def fields (s : Bytes) : List Bytes := fieldsGo s 0 []

def joinWords : List Bytes → Bytes
  | [] => []
  | [w] => w
  | w :: w' :: ws => w ++ 32 :: joinWords (w' :: ws)

theorem spaceWidth_eq_zero (h : ∀ r ∈ spaceRunes, ¬ r <+: s) : spaceWidth s = 0 := by
  have hnone : (spaceRunes.find? fun r => r.isPrefixOf s) = none := by
    rw [List.find?_eq_none]
    intro r hr
    rw [List.isPrefixOf_iff_prefix]
    exact h r hr
  rw [spaceWidth,hnone]

theorem spaceRunes_plain : ∀ r ∈ spaceRunes, r ≠ [] ∧ (r = [32] ∨ (32 : UInt8) ∉ r) := by decide

theorem spaceWidth_word (h : SpaceFree (b :: u)) (hrest : rest = [] ∨ ∃ t, rest = 32 :: t) :
    spaceWidth (b :: u ++ rest) = 0 := by
  apply spaceWidth_eq_zero
  intro r hr hlead
  have hlong : ¬ r.length ≤ (b :: u).length := by
    intro hle
    exact h r hr (List.prefix_of_prefix_length_le hlead (List.prefix_append _ _) hle).isInfix
  rcases hrest with rfl | ⟨t,rfl⟩
  · have hle := hlead.length_le
    rw [List.append_nil] at hle
    exact hlong hle
  · have hblank : b :: u ++ [32] <+: r := by
      refine List.prefix_of_prefix_length_le ?_ hlead (by rw [List.length_append,List.length_singleton]; omega)
      exact ⟨t,by rw [List.append_assoc,List.singleton_append]⟩
    have hmem : (32 : UInt8) ∈ r := hblank.subset (List.mem_append_right _ (List.mem_singleton_self 32))
    rcases (spaceRunes_plain r hr).2 with rfl | hplain
    · exact hlong (by rw [List.length_singleton,List.length_cons]; omega)
    · exact hplain hmem

theorem SpaceFree.of_printable (h : ∀ b ∈ s, 33 ≤ b ∧ b ≤ 126) : SpaceFree s := by
  have hrunes : ∀ r ∈ spaceRunes, ∃ b ∈ r, ¬ (33 ≤ b ∧ b ≤ 126) := by decide
  intro r hr hpart
  obtain ⟨b,hb,hbad⟩ := hrunes r hr
  exact hbad (h b (hpart.subset hb))

theorem SpaceFree.tail (h : SpaceFree (b :: u)) : SpaceFree u :=
  fun r hr hpart => h r hr (hpart.trans (List.suffix_cons b u).isInfix)

theorem fieldsGo_word (h : SpaceFree u) (hrest : rest = [] ∨ ∃ t, rest = 32 :: t) (cur : Bytes) :
    fieldsGo (u ++ rest) 0 cur = fieldsGo rest 0 (cur ++ u) := by
  induction u generalizing cur with
  | nil => rw [List.nil_append,List.append_nil]
  | cons b u ih =>
    have hwidth := spaceWidth_word h hrest
    rw [List.cons_append] at hwidth ⊢
    rw [fieldsGo,hwidth]
    dsimp only
    rw [ih h.tail,List.append_assoc,List.singleton_append]

theorem wordEnd_of_ne {w : Bytes} (h : w ≠ []) : wordEnd w = [w] := if_neg h

theorem fields_joinWords {ws : List Bytes} (h : ∀ w ∈ ws, w ≠ [] ∧ SpaceFree w) : fields (joinWords ws) = ws := by
  rw [fields]
  induction ws using joinWords.induct with
  | case1 => rfl
  | case2 w =>
    obtain ⟨hne,hfree⟩ := h w (List.mem_singleton_self w)
    have hword := fieldsGo_word hfree (Or.inl rfl) []
    rw [List.append_nil] at hword
    rw [joinWords,hword,fieldsGo,List.nil_append,wordEnd_of_ne hne]
  | case3 w w' ws ih =>
    obtain ⟨⟨hne,hfree⟩,htail⟩ := List.forall_mem_cons.mp h
    have hblank : ∀ t, spaceWidth (32 :: t) = 1 := fun t => rfl
    rw [joinWords,fieldsGo_word hfree (Or.inr ⟨_,rfl⟩),fieldsGo,hblank]
    dsimp only
    rw [ih htail,List.nil_append,wordEnd_of_ne hne,List.singleton_append]

end Spaces

section Trimming

/-- Takes away the runes at the front; `skip` bytes of a rune are still to be passed over. -/
def trimGo (runes : List Bytes) : Bytes → (skip : ℕ) → Bytes
  | [], _ => []
  | _ :: rest, skip+1 => trimGo runes rest skip
  | b :: rest, 0 =>
    match runes.find? fun r => r.isPrefixOf (b :: rest) with
    | some r => trimGo runes rest (r.length - 1)
    | none => b :: rest

def trimSpace (s : Bytes) : Bytes := (trimGo (spaceRunes.map List.reverse) (trimGo spaceRunes s 0).reverse 0).reverse

theorem trimGo_of_not {runes : List Bytes} (h : ∀ r ∈ runes, ¬ r <+: s) : trimGo runes s 0 = s := by
  cases s with
  | nil => rfl
  | cons b rest =>
    have hnone : (runes.find? fun r => r.isPrefixOf (b :: rest)) = none := by
      rw [List.find?_eq_none]
      intro r hr
      rw [List.isPrefixOf_iff_prefix]
      exact h r hr
    rw [trimGo,hnone]

theorem SpaceFree.trimSpace_eq (h : SpaceFree s) : trimSpace s = s := by
  have hfront : trimGo spaceRunes s 0 = s := trimGo_of_not fun r hr hlead => h r hr hlead.isInfix
  have hback : trimGo (spaceRunes.map List.reverse) s.reverse 0 = s.reverse := by
    refine trimGo_of_not ?_
    rw [List.forall_mem_map]
    intro r hr hlead
    exact h r hr (List.reverse_prefix.mp hlead).isInfix
  rw [trimSpace,hfront,hback,List.reverse_reverse]

end Trimming

section Decimal

open Radix

def IsDigit (b : UInt8) : Prop := 48 ≤ b ∧ b ≤ 57

instance : DecidablePred IsDigit := fun b => inferInstanceAs (Decidable (48 ≤ b ∧ b ≤ 57))

def digitValue (b : UInt8) : ℕ := b.toNat - 48

def digitByte (d : ℕ) : UInt8 := UInt8.ofNat (48 + d)

def decimalValue (s : Bytes) : ℕ := value 10 (s.map digitValue)

def decimal (n : ℕ) : Bytes := if n = 0 then [48] else (Nat.digits 10 n).reverse.map digitByte

theorem digitValue_digitByte (hd : d < 10) : digitValue (digitByte d) = d := by
  rw [digitValue,digitByte,UInt8.toNat_ofNat_of_lt' (by rw [UInt8.size]; omega)]
  omega

theorem isDigit_digitByte (hd : d < 10) : IsDigit (digitByte d) := by
  have hall : ∀ d : Fin 10, IsDigit (digitByte d) := by decide
  exact hall ⟨d,hd⟩

theorem decimal_isDigit (n : ℕ) : ∀ b ∈ decimal n, IsDigit b := by
  rw [decimal]
  split_ifs
  · rw [List.forall_mem_singleton]
    decide
  · rw [List.forall_mem_map]
    intro d hd
    exact isDigit_digitByte (Nat.digits_lt_base (by decide) (List.mem_reverse.mp hd))

theorem decimal_ne_nil (n : ℕ) : decimal n ≠ [] := by
  rw [decimal]
  split_ifs with hn
  · exact List.cons_ne_nil _ _
  · rw [ne_eq,List.map_eq_nil_iff,List.reverse_eq_nil_iff,Nat.digits_eq_nil_iff_eq_zero]
    exact hn

theorem decimalValue_decimal (n : ℕ) : decimalValue (decimal n) = n := by
  rw [decimal]
  split_ifs with hn
  · rw [hn]
    rfl
  · have hdigits : ∀ d ∈ (Nat.digits 10 n).reverse, (digitValue ∘ digitByte) d = id d := by
      intro d hd
      exact digitValue_digitByte (Nat.digits_lt_base (by decide) (List.mem_reverse.mp hd))
    rw [decimalValue,List.map_map,List.map_congr_left hdigits,List.map_id,value,List.reverse_reverse,Nat.ofDigits_digits]

theorem decimal_injective : Function.Injective decimal := fun n m h => by
  rw [← decimalValue_decimal n,h,decimalValue_decimal]

theorem length_decimal_le {n k : ℕ} (hk : 0 < k) (hn : n < 10^k) : (decimal n).length ≤ k := by
  rw [decimal]
  split_ifs with hzero
  · exact hk
  · rw [List.length_map,List.length_reverse,Nat.length_digits 10 n (by decide) hzero]
    exact Nat.log_lt_of_lt_pow hzero hn

theorem length_decimal_pow (k : ℕ) : (decimal (10^k)).length = k + 1 := by
  have hpos : 10^k ≠ 0 := (pow_pos (by decide) k).ne'
  rw [decimal,if_neg hpos,List.length_map,List.length_reverse,Nat.length_digits 10 _ (by decide) hpos,Nat.log_pow (by decide)]

theorem decimalValue_append (s t : Bytes) : decimalValue (s ++ t) = decimalValue s * 10^t.length + decimalValue t := by
  rw [decimalValue,List.map_append,value_append,List.length_map]
  rfl

theorem decimalValue_zeros (n : ℕ) : decimalValue (List.replicate n 48) = 0 := by
  rw [decimalValue,List.map_replicate]
  exact value_replicate_zero n

end Decimal

end Text
