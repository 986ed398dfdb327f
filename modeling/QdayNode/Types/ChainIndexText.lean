import QdayNode.Types.PolicyText
import QdayNode.Types.Transaction

/-!
# The text of a chain index

`ChainIndex.UnmarshalText` decodes the hexadecimal part into an array of 32 bytes and compares
lengths afterwards, so a part with a 33rd pair of digits ends in a panic.
-/
namespace QdayNode
open ByteString Text Outcome

variable {n : ℕ} {s src b : Bytes}

section Parsing

def splitColons : Bytes → List Bytes
  | [] => [[]]
  | 58 :: 58 :: rest => [] :: splitColons rest
  | b :: rest => (b :: (splitColons rest).headD []) :: (splitColons rest).tail

/-- `hex.Decode` into a slice of `room` bytes. -/
def hexInto : (room : ℕ) → Bytes → Outcome Bytes
  | _, [] => .ok []
  | _, [p] => fail (if (hexValue p).isSome then "odd length hex string" else "invalid byte")
  | room, p :: q :: src =>
    match hexValue p with
    | none => fail "invalid byte"
    | some a =>
      match hexValue q with
      | none => fail "invalid byte"
      | some b => do
          crashIf (room = 0) "index out of range"
          let rest ← hexInto (room - 1) src
          return (a * 16 + b) :: rest

def ChainIndex.marshalText (ci : ChainIndex) : Bytes := decimal ci.height.toNat ++ 58 :: 58 :: hexEncode ci.id.val

def ChainIndex.unmarshalText (b : Bytes) : Outcome ChainIndex :=
  match splitColons b with
  | [height, id] =>
    match parseUint 64 height with
    | .error msg => fail msg
    | .ok height => do
        let id ← hexInto 32 id
        if h : id.length = 32 then return ⟨UInt64.ofNat height, ⟨id, h⟩⟩ else fail "unexpected EOF"
  | _ => fail "wrong number of separators"

end Parsing

section Forms

def IsHex (b : UInt8) : Prop := (hexValue b).isSome = true

/-- An unsigned decimal of 64 bits, leading zeros allowed. -/
def IsDecimal64 (t : Bytes) : Prop := t ≠ [] ∧ (∀ b ∈ t, IsDigit b) ∧ decimalValue t < 2^64

def IsIndexText (b : Bytes) : Prop :=
  ∃ height id, b = height ++ 58 :: 58 :: id ∧ IsDecimal64 height ∧ id.length = 64 ∧ ∀ x ∈ id, IsHex x

/-- Two parts, of which the second starts with more digits than an ID has. -/
def IsOverlong (b : Bytes) : Prop :=
  ∃ height id, splitColons b = [height, id] ∧ IsDecimal64 height ∧ 66 ≤ id.length ∧ ∀ x ∈ id.take 66, IsHex x

theorem parseUint_eq_ok {t : Bytes} : parseUint 64 t = .ok n ↔ IsDecimal64 t ∧ decimalValue t = n := by
  rw [parseUint,IsDecimal64]
  split_ifs with hbad hlarge
  · simp only [reduceCtorEq,false_iff]
    rintro ⟨⟨hne,hdigits,-⟩,-⟩
    rcases hbad with hnil | ⟨b,hb,hnot⟩
    · exact hne hnil
    · exact hnot (hdigits b hb)
  · simp only [reduceCtorEq,false_iff]
    exact fun h => absurd h.1.2.2 (not_lt.mpr hlarge)
  · push Not at hbad hlarge
    rw [Except.ok.injEq]
    exact ⟨fun h => ⟨⟨hbad.1,hbad.2,hlarge⟩,h⟩,And.right⟩

theorem splitColons_cons {b : UInt8} (hb : b ≠ 58) :
    splitColons (b :: s) = (b :: (splitColons s).headD []) :: (splitColons s).tail := by
  rw [splitColons]
  rintro rest rfl _
  exact hb rfl

theorem splitColons_append {rest : Bytes} (hs : 58 ∉ s) : splitColons (s ++ 58 :: 58 :: rest) = s :: splitColons rest := by
  induction s with
  | nil => rw [List.nil_append,splitColons]
  | cons b s ih =>
    rw [List.mem_cons,not_or] at hs
    rw [List.cons_append,splitColons_cons (Ne.symm hs.1),ih hs.2]
    rfl

theorem splitColons_of_notMem (hs : 58 ∉ s) : splitColons s = [s] := by
  induction s with
  | nil => rfl
  | cons b s ih =>
    rw [List.mem_cons,not_or] at hs
    rw [splitColons_cons (Ne.symm hs.1),ih hs.2]
    rfl

theorem intercalate_splitColons (s : Bytes) : splitColons s ≠ [] ∧ [58, 58].intercalate (splitColons s) = s := by
  induction s using splitColons.induct with
  | case1 => exact ⟨List.cons_ne_nil _ _,rfl⟩
  | case2 rest ih =>
    obtain ⟨part,parts,hparts⟩ := List.exists_cons_of_ne_nil ih.1
    rw [splitColons]
    refine ⟨List.cons_ne_nil _ _,?_⟩
    rw [hparts] at ih ⊢
    rw [List.intercalate_cons_cons,ih.2]
    rfl
  | case3 b rest hb ih =>
    obtain ⟨part,parts,hparts⟩ := List.exists_cons_of_ne_nil ih.1
    rw [splitColons,hparts]
    rotate_left
    · exact hb
    refine ⟨List.cons_ne_nil _ _,?_⟩
    rw [hparts] at ih
    cases parts with
    | nil => simpa using ih.2
    | cons part' parts => simpa using ih.2

theorem hexInto_eq_ok {room : ℕ} {bs : Bytes} : hexInto room src = .ok bs ↔ hexDecode src = some bs ∧ bs.length ≤ room := by
  induction src using hexDecode.induct generalizing room bs with
  | case1 =>
    rw [hexInto,hexDecode,Except.ok.injEq,Option.some.injEq]
    exact ⟨fun h => ⟨h,h ▸ Nat.zero_le _⟩,And.left⟩
  | case2 => simp [hexInto,hexDecode]
  | case3 hi lo rest ih =>
    rw [hexInto,hexDecode]
    cases hexValue hi with
    | none => simp
    | some a =>
      cases hexValue lo with
      | none => simp
      | some b =>
        simp only [bind_eq_ok,crashIf_eq_ok,pure_eq_ok,ih,Option.bind_eq_bind,Option.bind_some,Option.bind_eq_some_iff,
          Option.pure_def,Option.some.injEq]
        constructor
        · rintro ⟨-,hroom,bs,⟨hbs,hle⟩,rfl⟩
          refine ⟨⟨bs,hbs,rfl⟩,?_⟩
          rw [List.length_cons]
          omega
        · rintro ⟨⟨bs,hbs,rfl⟩,hle⟩
          rw [List.length_cons] at hle
          exact ⟨(),by omega,bs,⟨hbs,by omega⟩,rfl⟩

theorem returns_hexInto {room : ℕ} {src : Bytes} :
    Outcome.Returns (hexInto room src) ↔ ¬ (2 * room + 2 ≤ src.length ∧ ∀ x ∈ src.take (2 * room + 2), IsHex x) := by
  induction src using hexDecode.induct generalizing room with
  | case1 => simp [hexInto,returns_ok]
  | case2 => simp [hexInto,returns_fail]
  | case3 hi lo rest ih =>
    rw [hexInto,List.take_succ_cons,List.take_succ_cons,List.forall_mem_cons,List.forall_mem_cons,IsHex,IsHex]
    cases hexValue hi with
    | none => simp [returns_fail]
    | some a =>
      cases hexValue lo with
      | none => simp [returns_fail]
      | some b =>
        cases room with
        | zero => simp [Outcome.Returns,crashIf,crash,bind,Except.bind]
        | succ room =>
          have hbind : Outcome.Returns (do
              crashIf (room + 1 = 0) "index out of range"
              let bs ← hexInto room rest
              return (a * 16 + b) :: bs) ↔ Outcome.Returns (hexInto room rest) := by
            rw [crashIf,if_neg (Nat.succ_ne_zero room),ok_bind]
            exact returns_bind_iff fun _ => returns_pure _
          refine hbind.trans (ih.trans (not_congr ?_))
          simp only [Option.isSome_some,true_and,List.length_cons]
          exact and_congr_left fun _ => by omega

theorem unmarshalText_eq_ok {ci : ChainIndex} : ChainIndex.unmarshalText b = .ok ci ↔
    ∃ height id, splitColons b = [height, id] ∧ IsDecimal64 height ∧ UInt64.ofNat (decimalValue height) = ci.height ∧
      hexDecode id = some ci.id.val := by
  rw [ChainIndex.unmarshalText]
  split
  next height id hsplit =>
    simp only [hsplit,List.cons.injEq,and_true,exists_and_left,exists_eq_left',↓existsAndEq,true_and]
    cases hparse : parseUint 64 height with
    | error msg =>
      simp only [fail_ne_ok,false_iff]
      rintro ⟨hdec,-⟩
      rw [parseUint_eq_ok.mpr ⟨hdec,rfl⟩] at hparse
      cases hparse
    | ok n =>
      obtain ⟨hdec,rfl⟩ := parseUint_eq_ok.mp hparse
      simp only [bind_eq_ok,hexInto_eq_ok]
      constructor
      · rintro ⟨id',⟨hid,-⟩,hci⟩
        split at hci
        · obtain rfl := pure_eq_ok.mp hci
          exact ⟨hdec,rfl,hid⟩
        · exact absurd hci fail_ne_ok
      · rintro ⟨-,hheight,hid⟩
        refine ⟨ci.id.val,⟨hid,ci.id.2.le⟩,?_⟩
        rw [dif_pos ci.id.2,hheight]
        rfl
  next hother =>
    simp only [fail_ne_ok,false_iff]
    rintro ⟨height,id,hsplit,-⟩
    exact hother _ _ hsplit

theorem returns_unmarshalText : Outcome.Returns (ChainIndex.unmarshalText b) ↔ ¬ IsOverlong b := by
  rw [ChainIndex.unmarshalText,IsOverlong]
  split
  next height id hsplit =>
    simp only [hsplit,List.cons.injEq,and_true,exists_and_left,exists_eq_left',↓existsAndEq,true_and]
    cases hparse : parseUint 64 height with
    | error msg =>
      simp only [returns_fail,true_iff]
      rintro ⟨hdec,-⟩
      rw [parseUint_eq_ok.mpr ⟨hdec,rfl⟩] at hparse
      cases hparse
    | ok n =>
      rw [and_iff_right (parseUint_eq_ok.mp hparse).1]
      refine (returns_bind_iff fun bs => ?_).trans (@returns_hexInto 32 id)
      split_ifs
      · exact returns_pure _
      · exact returns_fail _
  next hother =>
    simp only [returns_fail,true_iff]
    rintro ⟨height,id,hsplit,-⟩
    exact hother _ _ hsplit

theorem length_hexDecode_iff :
    (∃ bs, hexDecode s = some bs ∧ bs.length = n) ↔ s.length = 2 * n ∧ ∀ x ∈ s, IsHex x := by
  induction s using hexDecode.induct generalizing n with
  | case1 => simp [hexDecode,eq_comm]
  | case2 =>
    simp only [hexDecode,reduceCtorEq,false_and,exists_false,false_iff,List.length_singleton]
    omega
  | case3 hi lo rest ih =>
    rw [hexDecode,List.forall_mem_cons,List.forall_mem_cons,IsHex,IsHex]
    cases hexValue hi with
    | none => simp
    | some a =>
      cases hexValue lo with
      | none => simp
      | some b =>
        cases n with
        | zero => simp [Option.bind_eq_some_iff]
        | succ n =>
          simp only [Option.isSome_some,true_and,List.length_cons]
          rw [show rest.length + 1 + 1 = 2 * (n + 1) ↔ rest.length = 2 * n by omega,← ih]
          simp [Option.bind_eq_some_iff,and_assoc]

theorem hexValue_colon : hexValue 58 = none := by decide

/-- The texts that are read are those of the form the marshaller writes, up to leading zeros and
the case of the digits. -/
theorem exists_unmarshalText_iff : (∃ ci, ChainIndex.unmarshalText b = .ok ci) ↔ IsIndexText b := by
  constructor
  · rintro ⟨ci,hci⟩
    obtain ⟨height,id,hsplit,hdec,-,hid⟩ := unmarshalText_eq_ok.mp hci
    obtain ⟨hlen,hhex⟩ := length_hexDecode_iff.mp ⟨ci.id.val,hid,ci.id.2⟩
    refine ⟨height,id,?_,hdec,hlen,hhex⟩
    rw [← (intercalate_splitColons b).2,hsplit]
    simp
  · rintro ⟨height,id,rfl,hdec,hlen,hhex⟩
    obtain ⟨bs,hbs,hbs'⟩ := length_hexDecode_iff.mpr ⟨hlen.trans (by rfl : 64 = 2 * 32),hhex⟩
    have hheight : 58 ∉ height := fun hmem => absurd (hdec.2.1 58 hmem) (by decide)
    have hid : 58 ∉ id := fun hmem => by
      have := hhex 58 hmem
      rw [IsHex,hexValue_colon] at this
      cases this
    refine ⟨⟨UInt64.ofNat (decimalValue height),⟨bs,hbs'⟩⟩,unmarshalText_eq_ok.mpr ⟨height,id,?_,hdec,rfl,hbs⟩⟩
    rw [splitColons_append hheight,splitColons_of_notMem hid]

theorem unmarshalText_marshalText (ci : ChainIndex) : ChainIndex.unmarshalText ci.marshalText = .ok ci := by
  have hlen : ci.id.val.length = 32 := ci.id.2
  obtain ⟨-,hhex⟩ := length_hexDecode_iff.mp ⟨_,hexDecode_hexEncode ci.id.val,hlen⟩
  have hid : 58 ∉ hexEncode ci.id.val := fun hmem => by
    have := hhex 58 hmem
    rw [IsHex,hexValue_colon] at this
    cases this
  have hheight : 58 ∉ decimal ci.height.toNat := fun hmem => absurd (decimal_isDigit _ 58 hmem) (by decide)
  refine unmarshalText_eq_ok.mpr ⟨decimal ci.height.toNat,hexEncode ci.id.val,?_,
    ⟨decimal_ne_nil _,decimal_isDigit _,?_⟩,?_,hexDecode_hexEncode _⟩
  · rw [ChainIndex.marshalText,splitColons_append hheight,splitColons_of_notMem hid]
  · rw [decimalValue_decimal]
    exact ci.height.toNat_lt
  · rw [decimalValue_decimal,UInt64.ofNat_toNat]

/-- What a reader of chain indices may expect of a text. -/
structure ReadSafely (b : Bytes) : Prop where
  returns : Outcome.Returns (ChainIndex.unmarshalText b)
  accepts : (∃ ci, ChainIndex.unmarshalText b = .ok ci) ↔ IsIndexText b
  again : ∀ ci, ChainIndex.unmarshalText b = .ok ci → ChainIndex.unmarshalText ci.marshalText = .ok ci

theorem readSafely_iff (b : Bytes) : ReadSafely b ↔ ¬ IsOverlong b :=
  ⟨fun h => returns_unmarshalText.mp h.returns,fun h =>
    ⟨returns_unmarshalText.mpr h,exists_unmarshalText_iff,fun ci _ => unmarshalText_marshalText ci⟩⟩

theorem unmarshalText_overlong :
    ChainIndex.unmarshalText (48 :: 58 :: 58 :: List.replicate 66 48) = crash "index out of range" := by decide +kernel

end Forms

end QdayNode
