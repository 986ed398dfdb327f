import QdayNode.Types.Basic
import QdayNode.Library.Radix
import QdayNode.Library.Text

/-!
# Seed phrases

A seed of 32 bytes and a byte of its hash are 264 bits, which are written as 24 words of a
list of 2048.  Both loops of the source move single bits: `QdaySeedPhrase` reads eleven of them
for a word and `QdaySeedFromPhrase` sets them in an array of 33 bytes.
-/
namespace QdayNode
open ByteString Radix Outcome

/-- The list of words: 2048 different ones without white space. -/
structure WordList where
  words : List Bytes
  length_words : words.length = 2048
  nodup : words.Nodup
  plain : ∀ w ∈ words, w ≠ [] ∧ Text.SpaceFree w

def WordList.wordMap (L : WordList) (s : Bytes) : Option ℕ := L.words.idxOf? s

/-- `(b[bit/8] >> (7-bit%8)) & 1`. -/
def seedBit (b : Bytes) (bit : ℕ) : ℕ := (b.getD (bit / 8) 0 >>> UInt8.ofNat (7 - bit % 8) &&& 1).toNat

/-- The inner loop of `QdaySeedPhrase`, of which `m` passes are made. -/
def seedWord (b : Bytes) (i m : ℕ) : ℕ := (List.range m).foldl (fun n j => n <<< 1 % 2^16 ||| seedBit b (i * 11 + j)) 0

def qdaySeedPhrase (c : Crypto) (L : WordList) (seed : FixedBytes 32) : Outcome Bytes := do
  let h := c.sha256 seed.val
  let b := seed.val ++ [h.val.getD 0 0]
  let words ← (List.range 24).mapM fun i =>
    match L.words[seedWord b i 11]? with
    | some w => .ok w
    | none => crash "index out of range"
  pure (Text.joinWords words)

/-- `b[bit/8] |= byte((n>>uint(10-j))&1) << uint(7-bit%8)`. -/
def placeBit (n i : ℕ) (b : Bytes) (j : ℕ) : Bytes :=
  let bit := i * 11 + j
  b.set (bit / 8) (b.getD (bit / 8) 0 ||| UInt8.ofNat (n >>> (10 - j) &&& 1) <<< UInt8.ofNat (7 - bit % 8))

/-- The inner loop of `QdaySeedFromPhrase`, of which `m` passes are made. -/
def placeWord (b : Bytes) (i n m : ℕ) : Bytes := (List.range m).foldl (placeBit n i) b

/-- The pass of the outer loop of `QdaySeedFromPhrase` over one word. -/
def placePass (L : WordList) (i : ℕ) (s b : Bytes) : Outcome Bytes :=
  match L.wordMap s with
  | some n => .ok (placeWord b i n 11)
  | none => fail "unknown word in seed phrase"

def qdaySeedFromPhrase (c : Crypto) (L : WordList) (phrase : Bytes) : Outcome (FixedBytes 32) := do
  let w := Text.fields phrase
  rejectIf (w.length ≠ 24) "A QDAY seed phrase must contain exactly 24 words"
  let b ← foldIdx (placePass L) w 0 (List.replicate 33 0)
  let seed : FixedBytes 32 := slice 32 0 b
  let h := c.sha256 seed.val
  rejectIf (h.val.getD 0 0 ≠ b.getD 32 0) "seed phrase checksum mismatch"
  pure seed

section Bits

variable {b : Bytes}

theorem shiftedBit (v : UInt8) {r : ℕ} (hr : r < 8) : (v >>> UInt8.ofNat r &&& 1).toNat = v.toNat / 2^r % 2 := by
  have hall : ∀ v : UInt8, ∀ r : Fin 8, (v >>> UInt8.ofNat r &&& 1).toNat = v.toNat / 2^r.val % 2 := by
    refine Text.forall_byte ?_
    decide +kernel
  exact hall v ⟨r,hr⟩

theorem mod_byte_div {r : ℕ} (hr : r < 8) (x : ℕ) : x % 2^8 / 2^r % 2 = x / 2^r % 2 := by
  have hsplit : 2^8 = 2^r * 2^(8 - r) := by rw [← pow_add,Nat.add_sub_cancel' hr.le]
  rw [hsplit,Nat.mod_mul_right_div_self]
  exact Nat.mod_mod_of_dvd _ (dvd_pow_self 2 (by omega))

theorem seedBit_eq {bit : ℕ} (hbit : bit < 8 * b.length) : seedBit b bit = symbolsValue 8 b / 2^(8 * b.length - 1 - bit) % 2 := by
  have hr : 7 - bit % 8 < 8 := by omega
  have hk : bit / 8 < b.length := by omega
  have hexp : 8 * (b.length - 1 - bit / 8) + (7 - bit % 8) = 8 * b.length - 1 - bit := by omega
  rw [seedBit,shiftedBit _ hr,toNat_getD_eq_div (bytes_lt b) hk,mod_byte_div hr,Nat.div_div_eq_div_mul,← pow_mul,← pow_add,hexp]

theorem seedWord_eq {i m : ℕ} (hm : m ≤ 11) (hroom : i * 11 + m ≤ 8 * b.length) :
    seedWord b i m = symbolsValue 8 b / 2^(8 * b.length - i * 11 - m) % 2^m := by
  induction m with
  | zero => rw [pow_zero,Nat.mod_one]; rfl
  | succ m ih =>
    have hprev := ih (by omega) (by omega)
    have hexp : 8 * b.length - i * 11 - m = (8 * b.length - i * 11 - (m + 1)) + 1 := by omega
    have hexp' : 8 * b.length - 1 - (i * 11 + m) = 8 * b.length - i * 11 - (m + 1) := by omega
    have hsmall : seedWord b i m * 2^1 < 2^16 := by
      have hlt := Nat.mod_lt (symbolsValue 8 b / 2^(8 * b.length - i * 11 - m)) (Nat.two_pow_pos m)
      have hpow : 2^m ≤ 2^10 := Nat.pow_le_pow_right (by decide) (by omega)
      rw [hprev]
      omega
    have hbit := seedBit_eq (by omega : i * 11 + m < 8 * b.length)
    have hbitLt : seedBit b (i * 11 + m) < 2^1 := by
      rw [hbit]
      exact Nat.mod_lt _ (by decide)
    have hstep : seedWord b i (m + 1) = seedWord b i m <<< 1 % 2^16 ||| seedBit b (i * 11 + m) := by
      rw [seedWord,List.range_succ,List.foldl_append]
      rfl
    rw [hstep,Nat.mod_eq_of_lt (by rwa [Nat.shiftLeft_eq]),← Nat.shiftLeft_add_eq_or_of_lt hbitLt,Nat.shiftLeft_eq,hprev,hbit,hexp,hexp',
      pow_succ 2 (8 * b.length - i * 11 - (m + 1)),← Nat.div_div_eq_div_mul,pow_succ' 2 m,Nat.mod_mul,pow_one]
    ring

theorem orBit (v : UInt8) {x s : ℕ} (hx : x < 2) (hs : s < 8) (hclear : v.toNat / 2^s % 2 = 0) :
    (v ||| UInt8.ofNat x <<< UInt8.ofNat s).toNat = v.toNat + x * 2^s := by
  have hall : ∀ v : UInt8, ∀ x : Fin 2, ∀ s : Fin 8, v.toNat / 2^s.val % 2 = 0 →
      (v ||| UInt8.ofNat x <<< UInt8.ofNat s).toNat = v.toNat + x * 2^s.val := by
    refine Text.forall_byte ?_
    decide +kernel
  exact hall v ⟨x,hx⟩ ⟨s,hs⟩ hclear

/-- A bit that is set behind all others adds its place value. -/
theorem symbolsValue_placeBit {n i j : ℕ} (hroom : i * 11 + j < 8 * b.length)
    (hzeros : 2^(8 * b.length - (i * 11 + j)) ∣ symbolsValue 8 b) :
    symbolsValue 8 (placeBit n i b j) = symbolsValue 8 b + n / 2^(10 - j) % 2 * 2^(8 * b.length - 1 - (i * 11 + j)) := by
  generalize hbit : i * 11 + j = bit at hroom hzeros ⊢
  have hk : bit / 8 < b.length := by omega
  have hs : 7 - bit % 8 < 8 := by omega
  have hclear : (b.getD (bit / 8) 0).toNat / 2^(7 - bit % 8) % 2 = 0 := by
    rw [← shiftedBit _ hs]
    change seedBit b bit = 0
    rw [seedBit_eq hroom]
    obtain ⟨q,hq⟩ := hzeros
    have hexp : 8 * b.length - bit = (8 * b.length - 1 - bit) + 1 := by omega
    rw [hq,hexp,pow_succ,Nat.mul_assoc,Nat.mul_div_cancel_left _ (Nat.two_pow_pos _),Nat.mul_mod_right]
  have hx : n >>> (10 - j) &&& 1 = n / 2^(10 - j) % 2 := by
    rw [Nat.shiftRight_eq_div_pow]
    exact Nat.and_one_is_mod _
  have hset := symbolsValue_set (n := 8) hk
    (b.getD (bit / 8) 0 ||| UInt8.ofNat (n / 2^(10 - j) % 2) <<< UInt8.ofNat (7 - bit % 8))
  rw [orBit _ (Nat.mod_lt _ (by decide)) hs hclear,Nat.add_mul,← Nat.add_assoc,Nat.add_right_comm] at hset
  have hplace : 2^(7 - bit % 8) * (2^8)^(b.length - 1 - bit / 8) = 2^(8 * b.length - 1 - bit) := by
    rw [← pow_mul,← pow_add]
    congr 1
    omega
  rw [placeBit,hbit,hx,Nat.add_right_cancel hset,Nat.mul_assoc,hplace]

@[simp] theorem length_placeBit (n i j : ℕ) : (placeBit n i b j).length = b.length := List.length_set

theorem placeWord_succ (i n m : ℕ) : placeWord b i n (m + 1) = placeBit n i (placeWord b i n m) m := by
  rw [placeWord,List.range_succ,List.foldl_append]
  rfl

theorem placeWord_spec {X i n m : ℕ} (hm : m ≤ 11) (hroom : i * 11 + 11 ≤ 8 * b.length) (hn : n < 2^11)
    (hb : symbolsValue 8 b = X * 2^(8 * b.length - i * 11)) :
    (placeWord b i n m).length = b.length ∧
      symbolsValue 8 (placeWord b i n m) = (X * 2^m + n / 2^(11 - m)) * 2^(8 * b.length - i * 11 - m) := by
  induction m with
  | zero =>
    rw [pow_zero,Nat.mul_one,Nat.div_eq_of_lt hn,Nat.add_zero]
    exact ⟨rfl,hb⟩
  | succ m ih =>
    obtain ⟨hlength,hvalue⟩ := ih (by omega)
    have hexp : 8 * b.length - i * 11 - m = 8 * b.length - (i * 11 + m) := by omega
    have hexp' : 8 * b.length - (i * 11 + m) = (8 * b.length - i * 11 - (m + 1)) + 1 := by omega
    have hexp'' : 8 * b.length - 1 - (i * 11 + m) = 8 * b.length - i * 11 - (m + 1) := by omega
    have hbits : n / 2^(10 - m) = 2 * (n / 2^(11 - m)) + n / 2^(10 - m) % 2 := by
      have hdiv : n / 2^(11 - m) = n / 2^(10 - m) / 2 := by
        rw [Nat.div_div_eq_div_mul,← pow_succ]
        congr 2
        omega
      omega
    have hshift : 11 - (m + 1) = 10 - m := by omega
    have hplaced := symbolsValue_placeBit (b := placeWord b i n m) (n := n) (i := i) (j := m) (by rw [hlength]; omega)
      (by rw [hvalue,hlength,hexp]; exact Dvd.intro_left _ rfl)
    rw [placeWord_succ,length_placeBit,hplaced,hlength,hvalue,hexp,hexp',hexp'',hshift]
    refine ⟨rfl,?_⟩
    conv_rhs => rw [hbits]
    ring

end Bits

section Phrases

variable {c : Crypto} {L : WordList}

theorem WordList.wordMap_eq_some {s : Bytes} {n : ℕ} : L.wordMap s = some n ↔ L.words[n]? = some s := by
  rw [WordList.wordMap,List.idxOf?_eq_some_iff]
  constructor
  · rintro ⟨hlt,hget,-⟩
    rw [List.getElem?_eq_getElem hlt,hget]
  · intro h
    obtain ⟨hlt,hget⟩ := List.getElem?_eq_some_iff.mp h
    refine ⟨hlt,hget,?_⟩
    intro j hj heq
    have hsame := (List.Nodup.getElem_inj_iff L.nodup).mp (heq.trans hget.symm)
    omega

theorem WordList.lt_of_getElem? {n : ℕ} {s : Bytes} (h : L.words[n]? = some s) : n < 2^11 := by
  obtain ⟨hlt,-⟩ := List.getElem?_eq_some_iff.mp h
  rwa [L.length_words] at hlt

def Spelled (L : WordList) : List Bytes → List ℕ → Prop := List.Forall₂ fun s n => L.words[n]? = some s

theorem Spelled.lt {ws : List Bytes} {ns : List ℕ} (h : Spelled L ws ns) : ∀ n ∈ ns, n < 2^11 := by
  induction h with
  | nil => exact fun n hn => (List.not_mem_nil hn).elim
  | cons hhead _ ih => exact List.forall_mem_cons.mpr ⟨L.lt_of_getElem? hhead,ih⟩

theorem exists_words {ns : List ℕ} (h : ∀ n ∈ ns, n < 2^11) : ∃ ws, Spelled L ws ns := by
  induction ns with
  | nil => exact ⟨[],.nil⟩
  | cons n ns ih =>
    obtain ⟨hn,hns⟩ := List.forall_mem_cons.mp h
    obtain ⟨ws,hws⟩ := ih hns
    have hlt : n < L.words.length := by rwa [L.length_words]
    exact ⟨L.words[n] :: ws,.cons (List.getElem?_eq_getElem hlt) hws⟩

theorem Spelled.plain {ws : List Bytes} {ns : List ℕ} (h : Spelled L ws ns) : ∀ w ∈ ws, w ≠ [] ∧ Text.SpaceFree w := by
  induction h with
  | nil => exact fun w hw => (List.not_mem_nil hw).elim
  | cons hhead _ ih => exact List.forall_mem_cons.mpr ⟨L.plain _ (List.mem_of_getElem? hhead),ih⟩

theorem placePass_eq_ok {i : ℕ} {s b b' : Bytes} :
    placePass L i s b = .ok b' ↔ ∃ n, L.words[n]? = some s ∧ placeWord b i n 11 = b' := by
  rw [placePass]
  cases hn : L.wordMap s with
  | none =>
    constructor
    · intro h
      cases h
    · rintro ⟨n,hget,-⟩
      rw [WordList.wordMap_eq_some.mpr hget] at hn
      cases hn
  | some n =>
    have hget := WordList.wordMap_eq_some.mp hn
    constructor
    · intro h
      exact ⟨n,hget,Except.ok.inj h⟩
    · rintro ⟨n',hget',rfl⟩
      obtain rfl : n = n' := by
        have hsame := WordList.wordMap_eq_some.mpr hget'
        rw [hn] at hsame
        exact Option.some.inj hsame
      rfl

/-- What the outer loop has built after the words `pre`. -/
def Placed (L : WordList) (pre : List Bytes) (b : Bytes) : Prop :=
  b.length = 33 ∧ ∃ ns, Spelled L pre ns ∧ symbolsValue 8 b = value (2^11) ns * 2^(8 * 33 - pre.length * 11)

theorem Placed.next {pre : List Bytes} {s b : Bytes} {n : ℕ} (h : Placed L pre b) (hpre : pre.length < 24) (hn : L.words[n]? = some s) :
    Placed L (pre ++ [s]) (placeWord b pre.length n 11) := by
  obtain ⟨hlength,ns,hns,hvalue⟩ := h
  obtain ⟨hlength',hvalue'⟩ := placeWord_spec (m := 11) le_rfl (by omega) (L.lt_of_getElem? hn) (hlength.symm ▸ hvalue)
  refine ⟨hlength'.trans hlength,ns ++ [n],List.rel_append hns (.cons hn .nil),?_⟩
  have hexp : 8 * 33 - pre.length * 11 - 11 = 8 * 33 - (pre.length + 1) * 11 := by omega
  rw [hvalue',hlength,value_concat,List.length_append,List.length_singleton,Nat.sub_self,pow_zero,Nat.div_one,hexp]

theorem placed_nil : Placed L [] (List.replicate 33 0) := ⟨rfl,[],.nil,by decide⟩

theorem Spelled.unique {ws : List Bytes} {ns ns' : List ℕ} (h : Spelled L ws ns) (h' : Spelled L ws ns') : ns = ns' := by
  induction h generalizing ns' with
  | nil => exact (List.forall₂_nil_left_iff.mp h').symm
  | cons hhead _ ih =>
    obtain ⟨n',ms',hhead',htail',rfl⟩ := List.forall₂_cons_left_iff.mp h'
    have hnum := WordList.wordMap_eq_some.mpr hhead
    rw [WordList.wordMap_eq_some.mpr hhead',Option.some.injEq] at hnum
    rw [hnum,ih htail']

theorem placeLoop_value {ws : List Bytes} (hws : ws.length = 24) {b : Bytes}
    (hrun : foldIdx (placePass L) ws 0 (List.replicate 33 0) = .ok b) :
    b.length = 33 ∧ ∃ ns, Spelled L ws ns ∧ symbolsValue 8 b = value (2^11) ns := by
  have hplaced : Placed L ws b := by
    refine foldIdx_keeps (P := Placed L) ?_ hrun placed_nil
    intro pre s post b b' hsplit hpre hpass
    obtain ⟨n,hn,rfl⟩ := placePass_eq_ok.mp hpass
    refine hpre.next ?_ hn
    rw [hsplit,List.length_append,List.length_cons] at hws
    omega
  rw [Placed,hws,show 8 * 33 - 24 * 11 = 0 from rfl] at hplaced
  simpa only [pow_zero,Nat.mul_one] using hplaced

theorem placeLoop_ok {ws : List Bytes} {ns : List ℕ} (h : Spelled L ws ns) {i : ℕ} {b : Bytes} :
    ∃ b', foldIdx (placePass L) ws i b = .ok b' := by
  induction h generalizing i b with
  | nil => exact ⟨b,rfl⟩
  | cons hhead _ ih =>
    obtain ⟨b',hb'⟩ := @ih (i + 1) (placeWord b i _ 11)
    exact ⟨b',by rw [foldIdx,placePass_eq_ok.mpr ⟨_,hhead,rfl⟩,ok_bind,hb']⟩

/-- The bytes behind a phrase: the seed and one byte of its hash. -/
def seedBytes (c : Crypto) (seed : FixedBytes 32) : Bytes := seed.val ++ [(c.sha256 seed.val).val.getD 0 0]

theorem length_seedBytes (c : Crypto) (seed : FixedBytes 32) : (seedBytes c seed).length = 33 := by
  rw [seedBytes,List.length_append,seed.property,List.length_singleton]

theorem seedBytes_value_lt (c : Crypto) (seed : FixedBytes 32) : symbolsValue 8 (seedBytes c seed) < (2^11)^24 := by
  have hlt := symbolsValue_lt (bytes_lt (seedBytes c seed))
  rwa [length_seedBytes,show 8 * 33 = 11 * 24 from rfl,pow_mul] at hlt

/-- The words of a phrase are those of the number of its bytes. -/
theorem qdaySeedPhrase_eq {seed : FixedBytes 32} {ws : List Bytes}
    (h : Spelled L ws (digits (2^11) 24 (symbolsValue 8 (seedBytes c seed)))) :
    qdaySeedPhrase c L seed = .ok (Text.joinWords ws) := by
  have hwords : ((List.range 24).mapM fun i =>
      match L.words[seedWord (seedBytes c seed) i 11]? with
      | some w => Except.ok w
      | none => crash "index out of range") = (.ok ws : Outcome (List Bytes)) := by
    have hnumbers : (List.range 24).map (fun i => seedWord (seedBytes c seed) i 11) =
        digits (2^11) 24 (symbolsValue 8 (seedBytes c seed)) := by
      apply List.ext_getElem
      · rw [List.length_map,List.length_range,length_digits]
      · intro i hi hi'
        rw [List.length_map,List.length_range] at hi
        rw [List.getElem_map,List.getElem_range,getElem_digits,seedWord_eq le_rfl (by rw [length_seedBytes]; omega),length_seedBytes,← pow_mul]
        congr 3
        omega
    rw [← hnumbers,Spelled,List.forall₂_map_right_iff] at h
    rw [mapM_eq_ok]
    refine h.flip.imp ?_
    intro i w hw
    rw [hw]
  rw [qdaySeedPhrase,← seedBytes,hwords]
  rfl

/-- The seed behind 24 known words whose last byte is right. -/
theorem qdaySeedFromPhrase_eq_ok {phrase : Bytes} {seed : FixedBytes 32} :
    qdaySeedFromPhrase c L phrase = .ok seed ↔
      Spelled L (Text.fields phrase) (digits (2^11) 24 (symbolsValue 8 (seedBytes c seed))) := by
  have hslice : ∀ b : Bytes, b.length = 33 → (slice 32 0 b).val = b.take 32 := by
    intro b hb
    rw [slice_of_le (by omega),List.drop_zero]
  rw [qdaySeedFromPhrase,bind_unit_eq_ok,rejectIf_eq_ok,not_not,bind_eq_ok]
  constructor
  · rintro ⟨hcount,b,hrun,h⟩
    rw [bind_unit_eq_ok,rejectIf_eq_ok,not_not,pure_eq_ok] at h
    obtain ⟨hsum,rfl⟩ := h
    obtain ⟨hlength,ns,hns,hvalue⟩ := placeLoop_value hcount hrun
    have hbytes : seedBytes c (slice 32 0 b) = b := by
      rw [seedBytes,hsum,hslice b hlength,List.getD_eq_getElem _ _ (by omega : 32 < b.length),List.take_concat_get']
      exact List.take_of_length_le hlength.le
    have hdigits := digits_value hns.lt
    rw [← hns.length_eq,hcount] at hdigits
    rw [hbytes,hvalue,hdigits]
    exact hns
  · intro h
    have hcount : (Text.fields phrase).length = 24 := by rw [h.length_eq,length_digits]
    obtain ⟨b,hrun⟩ := placeLoop_ok h (i := 0) (b := List.replicate 33 0)
    obtain ⟨hlength,ns,hns,hvalue⟩ := placeLoop_value hcount hrun
    have hbytes : b = seedBytes c seed := by
      rw [hns.unique h,value_digits_of_lt (seedBytes_value_lt c seed)] at hvalue
      have hround := symbolsOf_symbolsValue (bytes_lt b)
      rw [hlength,hvalue,← length_seedBytes c seed,symbolsOf_symbolsValue (bytes_lt _)] at hround
      exact hround.symm
    have hseed : slice 32 0 b = seed := by
      refine Subtype.ext ?_
      rw [hslice b hlength,hbytes,seedBytes,List.take_left' seed.property]
    have hlast : b.getD 32 0 = (c.sha256 seed.val).val.getD 0 0 := by
      rw [hbytes,seedBytes,List.getD_eq_getElem?_getD,List.getElem?_append_right seed.property.le,seed.property]
      rfl
    refine ⟨hcount,b,hrun,?_⟩
    dsimp only
    rw [hseed,hlast,rejectIf_of_not (not_not.mpr rfl)]
    rfl

/-- A seed is read back from its phrase, and a phrase that is accepted has the words that the
phrase of its seed has. -/
theorem qdaySeed_roundTrip (c : Crypto) (L : WordList) :
    (∀ seed, ∃ phrase, qdaySeedPhrase c L seed = .ok phrase ∧ qdaySeedFromPhrase c L phrase = .ok seed) ∧
    ∀ phrase seed, qdaySeedFromPhrase c L phrase = .ok seed → qdaySeedPhrase c L seed = .ok (Text.joinWords (Text.fields phrase)) := by
  constructor
  · intro seed
    obtain ⟨ws,hws⟩ := exists_words (L := L) (digits_lt (Nat.two_pow_pos 11) (n := 24) (x := symbolsValue 8 (seedBytes c seed)))
    refine ⟨Text.joinWords ws,qdaySeedPhrase_eq hws,?_⟩
    rw [qdaySeedFromPhrase_eq_ok,Text.fields_joinWords hws.plain]
    exact hws
  · intro phrase seed h
    exact qdaySeedPhrase_eq (qdaySeedFromPhrase_eq_ok.mp h)

def sampleWord (i : ℕ) : Bytes := [UInt8.ofNat (97 + i / 256), UInt8.ofNat (97 + i / 16 % 16), UInt8.ofNat (97 + i % 16)]

def sampleWords : WordList where
  words := (List.range 2048).map sampleWord
  length_words := by rw [List.length_map, List.length_range]
  nodup := by
    refine List.Nodup.map_on ?_ List.nodup_range
    intro i hi j hj heq
    rw [List.mem_range] at hi hj
    have hletters := congrArg (List.map UInt8.toNat) heq
    simp only [sampleWord, List.map_cons, List.map_nil, UInt8.toNat_ofNat', List.cons.injEq] at hletters
    omega
  plain := by
    rw [List.forall_mem_map]
    intro i hi
    rw [List.mem_range] at hi
    have hletter : ∀ k, k < 16 → (33 : UInt8) ≤ UInt8.ofNat (97 + k) ∧ UInt8.ofNat (97 + k) ≤ 126 := by decide
    refine ⟨List.cons_ne_nil _ _, Text.SpaceFree.of_printable ?_⟩
    simp only [sampleWord, List.forall_mem_cons]
    exact ⟨hletter _ (by omega), hletter _ (by omega), hletter _ (by omega), fun b hb => (List.not_mem_nil hb).elim⟩

theorem qdaySeed_roundTrip_sample :
    ∃ phrase, qdaySeedPhrase sampleCrypto sampleWords default = .ok phrase ∧ qdaySeedFromPhrase sampleCrypto sampleWords phrase = .ok default ∧
      phrase = Text.joinWords (Text.fields phrase) := by
  obtain ⟨phrase,hphrase,hseed⟩ := (qdaySeed_roundTrip sampleCrypto sampleWords).1 default
  have hwords := (qdaySeed_roundTrip sampleCrypto sampleWords).2 phrase default hseed
  exact ⟨phrase,hphrase,hseed,Except.ok.inj (hphrase.symm.trans hwords)⟩

end Phrases

end QdayNode
