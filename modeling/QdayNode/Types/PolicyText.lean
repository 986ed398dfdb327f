import QdayNode.Types.PolicyWitness
import QdayNode.Types.CurrencyText

/-!
# The text of a spend policy

`SpendPolicy.String` writes a policy as nested calls and `ParseSpendPolicy` reads it with a
recursive descent.  The first error the parser meets is kept: every later step sees it and does
nothing.  Quoted names of key algorithms go through `strconv`, which enters as a parameter.
-/
namespace QdayNode
open ByteString Text

variable {s t rest : Bytes} {b d : UInt8} {msg : String} {l : List Bytes} {p : SpendPolicy}
  {leaf : String × (Bytes → Except String SpendPolicy)} {uc : UnlockConditions}

/-- `strconv.Quote` and `strconv.Unquote`. -/
structure Quoting where
  quote : Bytes → Bytes
  unquote : Bytes → Option Bytes

section Printing

def IsAlphanumeric (b : UInt8) : Prop := (65 ≤ b ∧ b ≤ 90) ∨ (97 ≤ b ∧ b ≤ 122) ∨ (48 ≤ b ∧ b ≤ 57)

instance : DecidablePred IsAlphanumeric := fun b =>
  inferInstanceAs (Decidable ((65 ≤ b ∧ b ≤ 90) ∨ (97 ≤ b ∧ b ≤ 122) ∨ (48 ≤ b ∧ b ≤ 57)))

def specifierString (q : Quoting) (s : Specifier) : Bytes :=
  let b := s.val.rdropWhile (· = 0)
  if ∀ x ∈ b, IsAlphanumeric x then b else q.quote b

def UnlockKey.marshalText (q : Quoting) (uk : UnlockKey) : Bytes := specifierString q uk.algorithm ++ 58 :: hexEncode uk.key

def writeHex (b : Bytes) : Bytes := ascii "0x" ++ hexEncode b

def commaList : List Bytes → Bytes
  | [] => []
  | s :: l => s ++ l.flatMap fun t => 44 :: t

/-- A name and what stands in brackets behind it. -/
def policyCall (name : String) (arguments : Bytes) : Bytes := ascii name ++ 40 :: (arguments ++ [41])

mutual
def SpendPolicy.string (q : Quoting) : SpendPolicy → Bytes
  | .above height => policyCall "above" (decimal height.toNat)
  | .after t => policyCall "after" (bigString t.unix.toInt)
  | .publicKey pk => policyCall "pk" (writeHex pk.val)
  | .hash h => policyCall "h" (writeHex h.val)
  | .slhdsa pk => policyCall "slh" (writeHex pk.val)
  | .threshold n subpolicies => policyCall "thresh" (decimal n.toNat ++ 44 :: 91 :: (commaList (SpendPolicy.strings q subpolicies) ++ [93]))
  | .opaqueHash a => policyCall "opaque" (writeHex a.val)
  | .unlockConditions uc =>
    policyCall "uc" (decimal uc.timelock.toNat ++ 44 :: 91 :: (commaList (uc.publicKeys.map (UnlockKey.marshalText q)) ++
      93 :: 44 :: decimal uc.signaturesRequired.toNat))

def SpendPolicy.strings (q : Quoting) : List SpendPolicy → List Bytes
  | [] => []
  | p :: ps => p.string q :: SpendPolicy.strings q ps
end

end Printing

section Parsing

/-- The variables the parser's functions share: the text that is left and the first error. -/
structure PolicyScan where
  text : Bytes
  err : Option String

def delimiters : Bytes := ascii "(),[]"

namespace PolicyScan

/-- An error is set only where there is none. -/
def fail (st : PolicyScan) (msg : String) : PolicyScan := ⟨st.text, st.err.or (some msg)⟩

def nextToken (st : PolicyScan) : Bytes × PolicyScan :=
  let s := trimSpace st.text
  if st.err ≠ none ∨ ∀ b ∈ s, b ∉ delimiters then ([], ⟨s, st.err⟩)
  else (trimSpace (s.takeWhile (· ∉ delimiters)), ⟨s.dropWhile (· ∉ delimiters), st.err⟩)

def consume (b : UInt8) (st : PolicyScan) : PolicyScan :=
  if st.err ≠ none then st
  else
    match trimSpace st.text with
    | [] => ⟨[], some "unexpected EOF"⟩
    | x :: s => if x = b then ⟨s, none⟩ else ⟨x :: s, some "expected another byte"⟩

def peek (st : PolicyScan) : UInt8 × PolicyScan :=
  let s := trimSpace st.text
  (if st.err ≠ none then 0 else s.headD 0, ⟨s, st.err⟩)

/-- A token that is read by a function of its own: `parseInt`, `parseTime`, `parsePubkey` and
`parseUnlockKey` differ in the function only. -/
def readToken {α : Type} (read : Bytes → Except String α) (zero : α) (st : PolicyScan) : α × PolicyScan :=
  let (t, st) := st.nextToken
  if st.err ≠ none then (zero, st)
  else
    match read t with
    | .ok a => (a, st)
    | .error msg => (zero, ⟨st.text, some msg⟩)

/-- The loop over the items of a list.  Every item that is read without an error takes some of the
text, so as many passes as the text has bytes are enough. -/
def readList {α : Type} (item : PolicyScan → α × PolicyScan) : (steps : ℕ) → PolicyScan → List α → List α × PolicyScan
  | 0, st, items => (items, st.fail "too many items")
  | steps+1, st, items =>
    if st.err ≠ none then (items, st)
    else
      let (b, st) := st.peek
      if b = 93 then (items, st)
      else
        let (a, st) := item st
        let (b, st) := st.peek
        let st := if b = 93 then st else st.consume 44
        readList item steps st (items ++ [a])

end PolicyScan

def parseUint (bitSize : ℕ) (t : Bytes) : Except String ℕ :=
  if t = [] ∨ ∃ b ∈ t, ¬ IsDigit b then .error "invalid syntax"
  else if 2^bitSize ≤ decimalValue t then .error "value out of range"
  else .ok (decimalValue t)

/-- `time.Unix(unix, 0)` for `strconv.ParseInt(t, 10, 64)`. -/
def parseUnix (t : Bytes) : Except String Time :=
  match bigSetString t with
  | none => .error "invalid syntax"
  | some i => if i < -2^63 ∨ 2^63 ≤ i then .error "value out of range" else .ok (Time.ofUnix (Int64.ofInt i))

def parsePubkey (t : Bytes) : Except String (FixedBytes 32) :=
  if t.length ≠ 66 then .error "invalid hex string length"
  else if t.take 2 ≠ ascii "0x" then .error "invalid hex string prefix"
  else
    match hexDecode (t.drop 2) with
    | none => .error "encoding/hex: invalid byte"
    | some b => .ok (slice 32 0 b)

/-- `Specifier.UnmarshalText`, on a specifier of zeros. -/
def unmarshalSpecifier (q : Quoting) (b : Bytes) : Except String Specifier :=
  match (if b.head? = some 34 then q.unquote b else some b) with
  | none => .error "invalid syntax"
  | some b => if b.length > 16 then .error "specifier too long" else .ok (newSpecifier b)

def unmarshalUnlockKey (q : Quoting) (t : Bytes) : Except String UnlockKey :=
  match lastIndexByte t 58 with
  | none => .error "decoding <algorithm>:<key> failed: no separator"
  | some i =>
    match unmarshalSpecifier q (t.take i), hexDecode (t.drop (i + 1)) with
    | .error msg, _ => .error ("decoding <algorithm>:<key> failed: " ++ msg)
    | .ok _, none => .error "decoding <algorithm>:<key> failed: encoding/hex: invalid byte"
    | .ok algorithm, some key => .ok ⟨algorithm, key⟩

/-- The policies with a single token between the brackets. -/
def leafPolicies : List (String × (Bytes → Except String SpendPolicy)) :=
  [("above", fun t => (parseUint 64 t).map fun u => .above (UInt64.ofNat u)), ("after", fun t => (parseUnix t).map .after),
    ("pk", fun t => (parsePubkey t).map .publicKey), ("slh", fun t => (parsePubkey t).map .slhdsa),
    ("h", fun t => (parsePubkey t).map .hash), ("opaque", fun t => (parsePubkey t).map .opaqueHash)]

open PolicyScan in
/-- What `parseSpendPolicy` does between the brackets; `sub` reads a policy inside. -/
def policyArguments (q : Quoting) (sub : PolicyScan → SpendPolicy × PolicyScan) (typ : Bytes) (st : PolicyScan) : SpendPolicy × PolicyScan :=
  match leafPolicies.find? fun leaf => ascii leaf.1 = typ with
  | some leaf => readToken leaf.2 (.above 0) st
  | none =>
    if typ = ascii "thresh" then
      let (n, st) := readToken (parseUint 8) 0 st
      let st := (st.consume 44).consume 91
      let (subpolicies, st) := readList sub (st.text.length + 1) st []
      (.threshold (UInt8.ofNat n) subpolicies, st.consume 93)
    else if typ = ascii "uc" then
      let (timelock, st) := readToken (parseUint 64) 0 st
      let st := (st.consume 44).consume 91
      let (pks, st) := readList (readToken (unmarshalUnlockKey q) ⟨default, []⟩) (st.text.length + 1) st []
      let st := (st.consume 93).consume 44
      let (sigsRequired, st) := readToken (parseUint 8) 0 st
      (.unlockConditions ⟨UInt64.ofNat timelock, pks, UInt64.ofNat sigsRequired⟩, st)
    else (.above 0, st.fail "unrecognized policy type")

/-- `parseSpendPolicy`.  Every call inside another has a pair of brackets of its own, so the depth
of the recursion is at most the length of the text. -/
def parsePolicy (q : Quoting) : (depth : ℕ) → PolicyScan → SpendPolicy × PolicyScan
  | 0, st => (.above 0, st.fail "too deep")
  | depth+1, st =>
    let typ := st.nextToken
    let p := policyArguments q (parsePolicy q depth) typ.1 (typ.2.consume 40)
    (p.1, p.2.consume 41)

def parseSpendPolicy (q : Quoting) (s : Bytes) : Outcome SpendPolicy :=
  let (p, st) := parsePolicy q (s.length + 1) ⟨s, none⟩
  match st.err with
  | some msg => Outcome.fail msg
  | none => if st.text ≠ [] then Outcome.fail "trailing bytes" else .ok p

end Parsing

section Scanning

variable {α : Type}

def Printable (s : Bytes) : Prop := ∀ b ∈ s, 33 ≤ b ∧ b ≤ 126

instance : DecidablePred Printable := fun s => inferInstanceAs (Decidable (∀ b ∈ s, 33 ≤ b ∧ b ≤ 126))

theorem Printable.trimSpace_eq (h : Printable s) : trimSpace s = s := (SpaceFree.of_printable h).trimSpace_eq

theorem printable_append : Printable (s ++ t) ↔ Printable s ∧ Printable t := List.forall_mem_append

theorem printable_cons : Printable (b :: s) ↔ (33 ≤ b ∧ b ≤ 126) ∧ Printable s := List.forall_mem_cons

/-- A text that can be a token: printable, without brackets or commas. -/
structure Word (t : Bytes) : Prop where
  printable : Printable t
  plain : ∀ b ∈ t, b ∉ delimiters

namespace PolicyScan

theorem nextToken_word (ht : Word t) (hd : d ∈ delimiters) (hrest : Printable (d :: rest)) :
    nextToken ⟨t ++ d :: rest, none⟩ = (t, ⟨d :: rest, none⟩) := by
  have hprint : Printable (t ++ d :: rest) := printable_append.mpr ⟨ht.printable,hrest⟩
  have hplain : ∀ b ∈ t, decide (b ∉ delimiters) = true := fun b hb => decide_eq_true (ht.plain b hb)
  have hstop : ¬ decide (d ∉ delimiters) = true := by rw [decide_eq_true_iff,not_not]; exact hd
  have hhead : (d :: rest).takeWhile (fun b => decide (b ∉ delimiters)) = [] := List.takeWhile_cons_of_neg hstop
  have htail : (d :: rest).dropWhile (fun b => decide (b ∉ delimiters)) = d :: rest := List.dropWhile_cons_of_neg hstop
  rw [nextToken]
  dsimp only
  rw [hprint.trimSpace_eq,if_neg,List.takeWhile_append_of_pos hplain,hhead,List.append_nil,ht.printable.trimSpace_eq,
    List.dropWhile_append_of_pos hplain,htail]
  rintro (hnone | hall)
  · exact hnone rfl
  · exact hall d (List.mem_append_right _ List.mem_cons_self) hd

theorem consume_ready (h : Printable (b :: rest)) : consume b ⟨b :: rest, none⟩ = ⟨rest, none⟩ := by
  rw [consume,if_neg (by simp),h.trimSpace_eq]
  exact if_pos rfl

theorem peek_ready (h : Printable (b :: rest)) : peek ⟨b :: rest, none⟩ = (b, ⟨b :: rest, none⟩) := by
  rw [peek]
  dsimp only
  rw [h.trimSpace_eq,if_neg (by simp)]
  rfl

theorem readToken_word {read : Bytes → Except String α} {zero a : α} (ht : Word t) (hd : d ∈ delimiters)
    (hrest : Printable (d :: rest)) (hread : read t = .ok a) : readToken read zero ⟨t ++ d :: rest, none⟩ = (a, ⟨d :: rest, none⟩) := by
  rw [readToken,nextToken_word ht hd hrest]
  dsimp only
  rw [if_neg (by simp),hread]

theorem readToken_error {read : Bytes → Except String α} {zero : α} (ht : Word t)
    (hd : d ∈ delimiters) (hrest : Printable (d :: rest)) (hread : read t = .error msg) :
    (readToken read zero ⟨t ++ d :: rest, none⟩).2.err = some msg := by
  rw [readToken,nextToken_word ht hd hrest]
  dsimp only
  rw [if_neg (by simp),hread]

/-- The first error is kept. -/
def Keeps (step : PolicyScan → α × PolicyScan) : Prop := ∀ st msg, st.err = some msg → (step st).2.err = some msg

theorem consume_keeps {st : PolicyScan} (h : st.err = some msg) (b : UInt8) : (st.consume b).err = some msg := by
  rw [consume,if_pos (by rw [h]; exact Option.some_ne_none msg)]
  exact h

theorem fail_keeps {st : PolicyScan} (h : st.err = some msg) (msg' : String) : (st.fail msg').err = some msg := by
  rw [fail,h]
  rfl

theorem nextToken_keeps : Keeps nextToken := by
  intro st msg h
  rw [nextToken]
  split_ifs
  · exact h
  · exact h

theorem readToken_keeps (read : Bytes → Except String α) (zero : α) : Keeps (readToken read zero) := by
  intro st msg h
  have hnext := nextToken_keeps st msg h
  rw [readToken]
  dsimp only
  rw [if_pos (by rw [hnext]; exact Option.some_ne_none msg)]
  exact hnext

theorem readList_keeps {item : PolicyScan → α × PolicyScan} {steps : ℕ} {st : PolicyScan} (h : st.err = some msg)
    (items : List α) : (readList item steps st items).2.err = some msg := by
  cases steps with
  | zero => exact fail_keeps h _
  | succ steps =>
    rw [readList,if_pos (by rw [h]; exact Option.some_ne_none msg)]
    exact h

/-- How `item` reads the text of `a`: back to `a` if it is `good`, otherwise with the error `msg`. -/
structure Reads (item : PolicyScan → α × PolicyScan) (str : α → Bytes) (good : α → Prop) (msg : String) (a : α) : Prop where
  ok : good a → ∀ d ∈ delimiters, ∀ rest, Printable (d :: rest) → item ⟨str a ++ d :: rest, none⟩ = (a, ⟨d :: rest, none⟩)
  stops : ¬ good a → ∀ d ∈ delimiters, ∀ rest, Printable (d :: rest) → (item ⟨str a ++ d :: rest, none⟩).2.err = some msg
  start : ∃ b t, str a = b :: t ∧ b ≠ 93
  printable : Printable (str a)

variable {item : PolicyScan → α × PolicyScan} {str : α → Bytes} {good : α → Prop}

theorem printable_commaList (h : ∀ s ∈ l, Printable s) : Printable (commaList l) := by
  cases l with
  | nil => exact fun b hb => (List.not_mem_nil hb).elim
  | cons s l =>
    rw [List.forall_mem_cons] at h
    rw [commaList,printable_append]
    refine ⟨h.1,?_⟩
    intro b hb
    obtain ⟨t,ht,hb⟩ := List.mem_flatMap.mp hb
    rcases List.mem_cons.mp hb with rfl | hb
    · decide
    · exact h.2 t ht b hb

theorem commaList_cons (s : Bytes) (l : List Bytes) (rest : Bytes) :
    ∃ d ∈ delimiters, ∃ tail, commaList (s :: l) ++ 93 :: rest = s ++ d :: tail ∧
      (d = 93 ∧ d :: tail = commaList l ++ 93 :: rest ∨ d = 44 ∧ tail = commaList l ++ 93 :: rest) := by
  cases l with
  | nil => exact ⟨93,by decide,rest,by rw [commaList]; simp,Or.inl ⟨rfl,rfl⟩⟩
  | cons t l => exact ⟨44,by decide,commaList (t :: l) ++ 93 :: rest,by simp [commaList],Or.inr ⟨rfl,rfl⟩⟩

/-- A list is read item by item up to its bracket, or up to the first item that is not good. -/
theorem readList_spec {as : List α} (has : ∀ a ∈ as, Reads item str good msg a) (hkeeps : Keeps item) (hrest : Printable rest)
    {steps : ℕ} (hsteps : as.length < steps) (items : List α) :
    ((∀ a ∈ as, good a) → readList item steps ⟨commaList (as.map str) ++ 93 :: rest, none⟩ items = (items ++ as, ⟨93 :: rest, none⟩)) ∧
    ((¬ ∀ a ∈ as, good a) → (readList item steps ⟨commaList (as.map str) ++ 93 :: rest, none⟩ items).2.err = some msg) := by
  have hend : Printable (93 :: rest) := printable_cons.mpr ⟨by decide,hrest⟩
  induction as generalizing steps items with
  | nil =>
    obtain ⟨steps,rfl⟩ := Nat.exists_eq_succ_of_ne_zero (by omega : steps ≠ 0)
    refine ⟨fun _ => ?_,fun h => (h fun a ha => (List.not_mem_nil ha).elim).elim⟩
    rw [List.map_nil,commaList,List.nil_append,Nat.succ_eq_add_one,readList,if_neg (by simp),peek_ready hend]
    dsimp only
    rw [if_pos rfl,List.append_nil]
  | cons a as ih =>
    obtain ⟨steps,rfl⟩ := Nat.exists_eq_succ_of_ne_zero (by rw [List.length_cons] at hsteps; omega : steps ≠ 0)
    rw [List.length_cons] at hsteps
    rw [List.forall_mem_cons] at has
    have hnext := @ih has.2 steps (by omega) (items ++ [a])
    obtain ⟨d,hd,tail,htext,hafter⟩ := commaList_cons (str a) (as.map str) rest
    obtain ⟨b,t,hstart,hb⟩ := has.1.start
    have hlist : Printable (commaList (as.map str) ++ 93 :: rest) :=
      printable_append.mpr ⟨printable_commaList (List.forall_mem_map.mpr fun a ha => (has.2 a ha).printable),hend⟩
    have htail : Printable (d :: tail) := by
      rcases hafter with ⟨-,heq⟩ | ⟨rfl,heq⟩
      · rw [heq]
        exact hlist
      · rw [printable_cons,heq]
        exact ⟨by decide,hlist⟩
    have hpeek : peek ⟨str a ++ d :: tail,none⟩ = (b, ⟨str a ++ d :: tail,none⟩) := by
      rw [hstart,List.cons_append]
      refine peek_ready ?_
      rw [← List.cons_append,← hstart,printable_append]
      exact ⟨has.1.printable,htail⟩
    have hpass : readList item (steps + 1) ⟨commaList ((a :: as).map str) ++ 93 :: rest,none⟩ items =
        readList item steps
          (if ((item ⟨str a ++ d :: tail,none⟩).2.peek).1 = 93 then ((item ⟨str a ++ d :: tail,none⟩).2.peek).2
            else ((item ⟨str a ++ d :: tail,none⟩).2.peek).2.consume 44)
          (items ++ [(item ⟨str a ++ d :: tail,none⟩).1]) := by
      rw [List.map_cons,htext,readList,if_neg (by simp),hpeek]
      dsimp only
      rw [if_neg hb]
    rw [Nat.succ_eq_add_one,hpass]
    by_cases hgood : good a
    · have hstate : (if (peek ⟨d :: tail,none⟩).1 = 93 then (peek ⟨d :: tail,none⟩).2 else (peek ⟨d :: tail,none⟩).2.consume 44) =
          ⟨commaList (as.map str) ++ 93 :: rest,none⟩ := by
        rw [peek_ready htail]
        dsimp only
        rcases hafter with ⟨rfl,heq⟩ | ⟨rfl,heq⟩
        · rw [if_pos rfl,heq]
        · rw [if_neg (by decide),consume_ready htail,heq]
      rw [has.1.ok hgood d hd tail htail]
      dsimp only
      rw [hstate]
      refine ⟨fun h => ?_,fun h => hnext.2 fun h' => h (List.forall_mem_cons.mpr ⟨hgood,h'⟩)⟩
      rw [hnext.1 (List.forall_mem_cons.mp h).2,List.append_assoc,List.singleton_append]
    · have hstop := has.1.stops hgood d hd tail htail
      refine ⟨fun h => (hgood (List.forall_mem_cons.mp h).1).elim,fun _ => ?_⟩
      have hpeeked : ((item ⟨str a ++ d :: tail,none⟩).2.peek).2.err = some msg := hstop
      apply readList_keeps
      split_ifs
      · exact hpeeked
      · exact consume_keeps hpeeked 44

end PolicyScan

end Scanning

section Words

/-- Printable characters that do not end a token. -/
def IsPlain (b : UInt8) : Prop := (33 ≤ b ∧ b ≤ 126) ∧ b ∉ delimiters

instance : DecidablePred IsPlain := fun b => inferInstanceAs (Decidable ((33 ≤ b ∧ b ≤ 126) ∧ b ∉ delimiters))

variable {bitSize n : ℕ} {q : Quoting} {k : UnlockKey}

theorem word_iff : Word t ↔ ∀ b ∈ t, IsPlain b := by
  constructor
  · intro h b hb
    exact ⟨h.printable b hb,h.plain b hb⟩
  · intro h
    exact ⟨fun b hb => (h b hb).1,fun b hb => (h b hb).2⟩

theorem word_append (hs : Word s) (ht : Word t) : Word (s ++ t) := by
  rw [word_iff] at *
  exact List.forall_mem_append.mpr ⟨hs,ht⟩

theorem word_decimal (n : ℕ) : Word (decimal n) := by
  have hdigit : ∀ b : UInt8, IsDigit b → IsPlain b := by
    refine forall_byte ?_
    decide +kernel
  rw [word_iff]
  exact fun b hb => hdigit b (decimal_isDigit n b hb)

theorem word_hexEncode (b : Bytes) : Word (hexEncode b) := by
  have hdigit : ∀ v : UInt8, IsPlain (hexDigit (v / 16)) ∧ IsPlain (hexDigit (v % 16)) := by
    refine forall_byte ?_
    decide +kernel
  rw [word_iff]
  intro x hx
  obtain ⟨v,-,hv⟩ := List.mem_flatMap.mp hx
  rcases List.mem_cons.mp hv with rfl | hv
  · exact (hdigit v).1
  · rw [List.mem_singleton.mp hv]
    exact (hdigit v).2

theorem word_bigString (i : ℤ) : Word (bigString i) := by
  rw [bigString]
  split_ifs
  · exact word_append (s := [45]) (word_iff.mpr (by decide +kernel)) (word_decimal _)
  · exact word_decimal _

theorem word_writeHex (b : Bytes) : Word (writeHex b) := word_append (word_iff.mpr (by decide +kernel)) (word_hexEncode b)

theorem parseUint_decimal (h : n < 2^bitSize) : parseUint bitSize (decimal n) = .ok n := by
  rw [parseUint,if_neg,decimalValue_decimal,if_neg (not_le.mpr h)]
  rintro (hnil | ⟨b,hb,hbad⟩)
  · exact decimal_ne_nil n hnil
  · exact hbad (decimal_isDigit n b hb)

theorem parseUint_overflow (h : 2^bitSize ≤ n) : parseUint bitSize (decimal n) = .error "value out of range" := by
  rw [parseUint,if_neg,decimalValue_decimal,if_pos h]
  rintro (hnil | ⟨b,hb,hbad⟩)
  · exact decimal_ne_nil n hnil
  · exact hbad (decimal_isDigit n b hb)

theorem bigSetString_bigString (i : ℤ) : bigSetString (bigString i) = some i := by
  have hdigits := bigSetString_digits (decimal_ne_nil i.natAbs) (decimal_isDigit i.natAbs)
  rw [decimalValue_decimal] at hdigits
  rw [bigString]
  split_ifs with hneg
  · have hwhole : decimal i.natAbs ≠ [] ∧ ∀ b ∈ decimal i.natAbs, IsDigit b := ⟨decimal_ne_nil _,decimal_isDigit _⟩
    rw [bigSetString]
    dsimp only
    rw [if_pos hwhole,decimalValue_decimal,Option.map_some,Option.some.injEq]
    omega
  · rw [hdigits,Option.some.injEq]
    omega

theorem parseUnix_unix {t : Time} (h : t.nsec = 0) : parseUnix (bigString t.unix.toInt) = .ok t := by
  have hlow := Int64.le_toInt t.unix
  have hhigh := Int64.toInt_lt t.unix
  rw [parseUnix,bigSetString_bigString]
  dsimp only
  rw [if_neg (by omega),Int64.ofInt_toInt,Time.unix,Time.ofUnix,Int64.sub_add_cancel,← h]

theorem parsePubkey_writeHex (pk : FixedBytes 32) : parsePubkey (writeHex pk.val) = .ok pk := by
  have hlength : (hexEncode pk.val).length = 64 := by
    rw [length_hexDecode (hexDecode_hexEncode pk.val),pk.property]
  have hslice : slice 32 0 pk.val = pk := by
    refine Subtype.ext ?_
    rw [slice_of_le (by rw [pk.property]),List.drop_zero,List.take_of_length_le pk.property.le]
  have htwo : (ascii "0x").length = 2 := rfl
  rw [parsePubkey,if_neg,if_neg,writeHex,List.drop_left' htwo,hexDecode_hexEncode]
  · exact congrArg Except.ok hslice
  · rw [not_not,writeHex,List.take_left' htwo]
  · rw [not_not,writeHex,List.length_append,hlength,htwo]

theorem marshalText_ed25519 (q : Quoting) (key : Bytes) :
    (UnlockKey.mk specifierEd25519 key).marshalText q = ascii "ed25519" ++ 58 :: hexEncode key := by
  have hname : specifierString q specifierEd25519 = ascii "ed25519" := by
    have hcut : specifierEd25519.val.rdropWhile (· = 0) = ascii "ed25519" := by decide +kernel
    rw [specifierString,hcut]
    exact if_pos (by decide +kernel)
  rw [UnlockKey.marshalText,hname]

theorem word_marshalText (h : k.algorithm = specifierEd25519) : Word (k.marshalText q) := by
  obtain ⟨algorithm,key⟩ := k
  obtain rfl : algorithm = specifierEd25519 := h
  rw [marshalText_ed25519]
  exact word_append (word_iff.mpr (by decide +kernel)) (word_append (s := [58]) (word_iff.mpr (by decide +kernel)) (word_hexEncode key))

theorem unmarshalUnlockKey_ed25519 (q : Quoting) (key : Bytes) :
    unmarshalUnlockKey q (ascii "ed25519" ++ 58 :: hexEncode key) = .ok ⟨specifierEd25519, key⟩ := by
  have hsep : lastIndexByte (ascii "ed25519" ++ 58 :: hexEncode key) 58 = some 7 := by
    refine lastIndexByte_append ?_
    intro hmem
    have hcolon : ∀ v : UInt8, hexDigit (v / 16) ≠ 58 ∧ hexDigit (v % 16) ≠ 58 := by
      refine forall_byte ?_
      decide +kernel
    obtain ⟨v,-,hv⟩ := List.mem_flatMap.mp hmem
    rcases List.mem_cons.mp hv with hv | hv
    · exact (hcolon v).1 hv.symm
    · exact (hcolon v).2 (List.mem_singleton.mp hv).symm
  have hname : unmarshalSpecifier q (ascii "ed25519") = .ok specifierEd25519 := rfl
  have hlength : (ascii "ed25519").length = 7 := rfl
  have hdrop : (ascii "ed25519" ++ 58 :: hexEncode key).drop (7 + 1) = hexEncode key := by
    rw [← List.drop_drop,List.drop_left' hlength]
    rfl
  rw [unmarshalUnlockKey,hsep]
  dsimp only
  rw [List.take_left' hlength,hname,hdrop,hexDecode_hexEncode]

theorem reads_unlockKeyText (h : k.algorithm = specifierEd25519) :
    PolicyScan.Reads (PolicyScan.readToken (unmarshalUnlockKey q) ⟨default, []⟩) (UnlockKey.marshalText q) (fun _ => True) "" k := by
  have hword := word_marshalText (q := q) h
  obtain ⟨algorithm,key⟩ := k
  obtain rfl : algorithm = specifierEd25519 := h
  rw [marshalText_ed25519] at hword
  refine ⟨fun _ d hd rest hrest => ?_,fun h => (h trivial).elim,?_,?_⟩
  · rw [marshalText_ed25519]
    exact PolicyScan.readToken_word hword hd hrest (unmarshalUnlockKey_ed25519 q key)
  · rw [marshalText_ed25519]
    exact ⟨101,ascii "d25519" ++ 58 :: hexEncode key,rfl,by decide⟩
  · rw [marshalText_ed25519]
    exact hword.printable

end Words

section Trees

variable {q : Quoting}

def SpendPolicy.Textual (p : SpendPolicy) : Prop :=
  (∀ t, Inside (.after t) p → t.WholeSecond) ∧
    ∀ uc, Inside (.unlockConditions uc) p → ∀ k ∈ uc.publicKeys, k.algorithm = specifierEd25519

def SpendPolicy.Fits (p : SpendPolicy) : Prop := ∀ uc, Inside (.unlockConditions uc) p → uc.signaturesRequired ≤ 255

theorem SpendPolicy.strings_eq (ps : List SpendPolicy) : SpendPolicy.strings q ps = ps.map (SpendPolicy.string q) := by
  induction ps with
  | nil => rfl
  | cons p ps ih => rw [SpendPolicy.strings,ih,List.map_cons]

variable {x : SpendPolicy} {n : UInt8} {ps : List SpendPolicy} {depth : ℕ} {name : String}
  {arguments : Bytes}

theorem SpendPolicy.inside_threshold :
    Inside x (.threshold n ps) ↔ x = .threshold n ps ∨ ∃ p ∈ ps, Inside x p := by
  constructor
  · rintro (_ | ⟨hp,h⟩)
    · exact Or.inl rfl
    · exact Or.inr ⟨_,hp,h⟩
  · rintro (rfl | ⟨p,hp,h⟩)
    · exact .here
    · exact .child hp h

theorem SpendPolicy.inside_leaf (hleaf : ∀ n ps, p ≠ .threshold n ps) : Inside x p ↔ x = p := by
  constructor
  · rintro (_ | _)
    · rfl
    · exact (hleaf _ _ rfl).elim
  · rintro rfl
    exact .here

theorem SpendPolicy.fits_threshold : (SpendPolicy.threshold n ps).Fits ↔ ∀ p ∈ ps, p.Fits := by
  constructor
  · exact fun h p hp uc huc => h uc (.child hp huc)
  · rintro h uc (_ | ⟨hp,huc⟩)
    exact h _ hp uc huc

theorem SpendPolicy.Textual.sub (h : (SpendPolicy.threshold n ps).Textual) : ∀ p ∈ ps, p.Textual :=
  fun _ hp => ⟨fun t ht => h.1 t (.child hp ht),fun uc huc => h.2 uc (.child hp huc)⟩

def policyNames : List String := ["above", "after", "pk", "slh", "h", "thresh", "opaque", "uc"]

theorem policyNames_word : ∀ name ∈ policyNames, (∀ b ∈ ascii name, IsPlain b) ∧ ascii name ≠ [] := by decide +kernel

theorem SpendPolicy.string_call (p : SpendPolicy) : ∃ name ∈ policyNames, ∃ arguments, p.string q = policyCall name arguments := by
  cases p <;> rw [SpendPolicy.string] <;> exact ⟨_,by decide,_,rfl⟩

theorem SpendPolicy.string_start (p : SpendPolicy) : ∃ b t, p.string q = b :: t ∧ b ≠ 93 := by
  obtain ⟨name,hname,arguments,heq⟩ := p.string_call (q := q)
  obtain ⟨hplain,hne⟩ := policyNames_word name hname
  obtain ⟨b,t,hcons⟩ := List.exists_cons_of_ne_nil hne
  rw [hcons] at hplain
  refine ⟨b,t ++ 40 :: (arguments ++ [41]),by rw [heq,policyCall,hcons,List.cons_append],?_⟩
  rintro rfl
  exact absurd (hplain 93 List.mem_cons_self) (by decide)

open PolicyScan

theorem parsePolicy_succ (depth : ℕ) (st : PolicyScan) :
    parsePolicy q (depth + 1) st =
      ((policyArguments q (parsePolicy q depth) st.nextToken.1 (st.nextToken.2.consume 40)).1,
        (policyArguments q (parsePolicy q depth) st.nextToken.1 (st.nextToken.2.consume 40)).2.consume 41) := rfl

/-- A policy's text is its name and its arguments in brackets. -/
theorem parsePolicy_call (hname : name ∈ policyNames) (harguments : Printable arguments)
    (hrest : Printable rest) :
    parsePolicy q (depth + 1) ⟨policyCall name arguments ++ rest, none⟩ =
      ((policyArguments q (parsePolicy q depth) (ascii name) ⟨arguments ++ 41 :: rest, none⟩).1,
        (policyArguments q (parsePolicy q depth) (ascii name) ⟨arguments ++ 41 :: rest, none⟩).2.consume 41) := by
  have hbody : Printable (40 :: (arguments ++ 41 :: rest)) := by
    rw [printable_cons,printable_append,printable_cons]
    exact ⟨by decide,harguments,by decide,hrest⟩
  have htext : policyCall name arguments ++ rest = ascii name ++ 40 :: (arguments ++ 41 :: rest) := by
    rw [policyCall,List.append_assoc,List.cons_append,List.append_assoc,List.singleton_append]
  have htoken : nextToken ⟨ascii name ++ 40 :: (arguments ++ 41 :: rest),none⟩ = (ascii name, ⟨40 :: (arguments ++ 41 :: rest),none⟩) :=
    nextToken_word (word_iff.mpr (policyNames_word name hname).1) (by decide) hbody
  rw [htext,parsePolicy_succ,htoken,consume_ready hbody]

theorem SpendPolicy.leaf_or_threshold (p : SpendPolicy) : (∀ n ps, p ≠ .threshold n ps) ∨ ∃ n ps, p = .threshold n ps := by
  by_cases h : ∃ n ps, p = .threshold n ps
  · exact Or.inr h
  · exact Or.inl fun n ps heq => h ⟨n,ps,heq⟩

theorem SpendPolicy.induct {P : SpendPolicy → Prop} (leaf : ∀ p, (∀ n ps, p ≠ .threshold n ps) → P p)
    (threshold : ∀ n ps, (∀ p ∈ ps, P p) → P (.threshold n ps)) (p : SpendPolicy) : P p := by
  induction hsize : sizeOf p using Nat.strong_induction_on generalizing p with
  | _ size ih =>
    subst hsize
    rcases p.leaf_or_threshold with hleaf | ⟨n,ps,rfl⟩
    · exact leaf p hleaf
    · refine threshold n ps fun p hp => ih _ ?_ p rfl
      have hlt := List.sizeOf_lt_of_mem hp
      rw [SpendPolicy.threshold.sizeOf_spec]
      omega

theorem printable_policyCall (hname : name ∈ policyNames) (h : Printable arguments) :
    Printable (policyCall name arguments) := by
  rw [policyCall,printable_append,printable_cons,printable_append]
  exact ⟨(word_iff.mpr (policyNames_word name hname).1).printable,by decide,h,by decide +kernel⟩

theorem SpendPolicy.printable_string (p : SpendPolicy) (h : p.Textual) : Printable (p.string q) := by
  induction p using SpendPolicy.induct with
  | leaf p hleaf =>
    cases p with
    | above height => exact printable_policyCall (by decide) (word_decimal _).printable
    | after t => exact printable_policyCall (by decide) (word_bigString _).printable
    | publicKey pk => exact printable_policyCall (by decide) (word_writeHex _).printable
    | slhdsa pk => exact printable_policyCall (by decide) (word_writeHex _).printable
    | hash x => exact printable_policyCall (by decide) (word_writeHex _).printable
    | opaqueHash a => exact printable_policyCall (by decide) (word_writeHex _).printable
    | threshold n ps => exact (hleaf n ps rfl).elim
    | unlockConditions uc =>
      have hkeys : ∀ s ∈ uc.publicKeys.map (UnlockKey.marshalText q), Printable s := by
        intro s hs
        obtain ⟨k,hk,rfl⟩ := List.mem_map.mp hs
        exact (word_marshalText (h.2 uc .here k hk)).printable
      rw [SpendPolicy.string]
      refine printable_policyCall (by decide) ?_
      rw [printable_append,printable_cons,printable_cons,printable_append,printable_cons,printable_cons]
      exact ⟨(word_decimal _).printable,by decide,by decide,printable_commaList hkeys,by decide,by decide,(word_decimal _).printable⟩
  | threshold n ps ih =>
    have hsub : ∀ s ∈ ps.map (SpendPolicy.string q), Printable s := by
      intro s hs
      obtain ⟨p,hp,rfl⟩ := List.mem_map.mp hs
      exact ih p hp (h.sub p hp)
    rw [SpendPolicy.string,SpendPolicy.strings_eq]
    refine printable_policyCall (by decide) ?_
    rw [printable_append,printable_cons,printable_cons,printable_append]
    exact ⟨(word_decimal _).printable,by decide,by decide,printable_commaList hsub,by decide +kernel⟩

theorem length_le_commaList {l : List Bytes} : l.length ≤ (commaList l).length + 1 ∧ ∀ s ∈ l, s.length ≤ (commaList l).length := by
  cases l with
  | nil => exact ⟨Nat.zero_le _,fun s hs => (List.not_mem_nil hs).elim⟩
  | cons s l =>
    have hrest : l.length ≤ (l.flatMap fun t => 44 :: t).length ∧ ∀ s ∈ l, s.length ≤ (l.flatMap fun t => 44 :: t).length := by
      induction l with
      | nil => exact ⟨le_rfl,fun s hs => (List.not_mem_nil hs).elim⟩
      | cons t l ih =>
        rw [List.flatMap_cons,List.length_append,List.length_cons,List.length_cons,List.forall_mem_cons]
        exact ⟨by omega,by omega,fun s hs => (ih.2 s hs).trans (by omega)⟩
    rw [commaList,List.length_append,List.length_cons,List.forall_mem_cons]
    exact ⟨by omega,by omega,fun s' hs' => (hrest.2 s' hs').trans (by omega)⟩

theorem policyArguments_keeps (sub : PolicyScan → SpendPolicy × PolicyScan) (typ : Bytes) : Keeps (policyArguments q sub typ) := by
  intro st msg h
  have htoken {β : Type} (read : Bytes → Except String β) (zero : β) : (readToken read zero st).2.err = some msg :=
    readToken_keeps read zero st msg h
  rw [policyArguments]
  split
  · exact htoken _ _
  split_ifs
  · exact consume_keeps (readList_keeps (consume_keeps (consume_keeps (htoken (parseUint 8) 0) 44) 91) []) 93
  · have hopen := consume_keeps (consume_keeps (htoken (parseUint 64) 0) 44) 91
    exact readToken_keeps (parseUint 8) 0 _ msg (consume_keeps (consume_keeps (readList_keeps hopen []) 93) 44)
  · exact fail_keeps h _

theorem parsePolicy_keeps (depth : ℕ) : Keeps (parsePolicy q depth) := by
  intro st msg h
  cases depth with
  | zero => exact fail_keeps h _
  | succ depth =>
    rw [parsePolicy_succ]
    exact consume_keeps (policyArguments_keeps _ _ _ _ (consume_keeps (nextToken_keeps st msg h) 40)) 41

section Arguments

variable {sub : PolicyScan → SpendPolicy × PolicyScan}

theorem policyArguments_leaf {typ : Bytes}
    (hleaf : leafPolicies.find? (fun leaf => ascii leaf.1 = typ) = some leaf) (ht : Word t) (h : Printable (41 :: rest))
    (hread : leaf.2 t = .ok p) : policyArguments q sub typ ⟨t ++ 41 :: rest, none⟩ = (p, ⟨41 :: rest, none⟩) := by
  rw [policyArguments,hleaf]
  exact readToken_word ht (by decide) h hread

theorem policyArguments_threshold (n : UInt8) (h : Printable s) :
    policyArguments q sub (ascii "thresh") ⟨decimal n.toNat ++ 44 :: 91 :: s, none⟩ =
      (.threshold n (readList sub (s.length + 1) ⟨s, none⟩ []).1, (readList sub (s.length + 1) ⟨s, none⟩ []).2.consume 93) := by
  have hopen : Printable (91 :: s) := printable_cons.mpr ⟨by decide,h⟩
  have hcomma : Printable (44 :: 91 :: s) := printable_cons.mpr ⟨by decide,hopen⟩
  have hleaf : leafPolicies.find? (fun leaf => ascii leaf.1 = ascii "thresh") = none := rfl
  rw [policyArguments,hleaf]
  dsimp only
  rw [if_pos rfl,readToken_word (word_decimal _) (by decide) hcomma (parseUint_decimal n.toNat_lt)]
  dsimp only
  rw [consume_ready hcomma,consume_ready hopen,UInt8.ofNat_toNat]

/-- Behind the timelock stands the list of the keys and behind it the number of signatures. -/
theorem policyArguments_unlockConditions (timelock : UInt64) {pks : List UnlockKey} (hkeys : ∀ k ∈ pks, k.algorithm = specifierEd25519)
    (sigs : UInt64) (h : Printable (41 :: rest)) :
    policyArguments q sub (ascii "uc") ⟨decimal timelock.toNat ++ 44 :: 91 :: (commaList (pks.map (UnlockKey.marshalText q)) ++
        93 :: 44 :: (decimal sigs.toNat ++ 41 :: rest)), none⟩ =
      (.unlockConditions ⟨timelock, pks, UInt64.ofNat (readToken (parseUint 8) 0 ⟨decimal sigs.toNat ++ 41 :: rest, none⟩).1⟩,
        (readToken (parseUint 8) 0 ⟨decimal sigs.toNat ++ 41 :: rest, none⟩).2) := by
  have hreads : ∀ k ∈ pks, Reads (readToken (unmarshalUnlockKey q) ⟨default,[]⟩) (UnlockKey.marshalText q) (fun _ => True) "" k :=
    fun k hk => reads_unlockKeyText (hkeys k hk)
  have hsigs : Printable (decimal sigs.toNat ++ 41 :: rest) := printable_append.mpr ⟨(word_decimal _).printable,h⟩
  have hcomma : Printable (44 :: (decimal sigs.toNat ++ 41 :: rest)) := printable_cons.mpr ⟨by decide,hsigs⟩
  have hclose : Printable (93 :: 44 :: (decimal sigs.toNat ++ 41 :: rest)) := printable_cons.mpr ⟨by decide,hcomma⟩
  have hlist : Printable (commaList (pks.map (UnlockKey.marshalText q)) ++ 93 :: 44 :: (decimal sigs.toNat ++ 41 :: rest)) :=
    printable_append.mpr ⟨printable_commaList (List.forall_mem_map.mpr fun k hk => (hreads k hk).printable),hclose⟩
  have hopen := printable_cons.mpr ⟨(by decide : (33 : UInt8) ≤ 91 ∧ (91 : UInt8) ≤ 126),hlist⟩
  have hfirst := printable_cons.mpr ⟨(by decide : (33 : UInt8) ≤ 44 ∧ (44 : UInt8) ≤ 126),hopen⟩
  have hsteps : pks.length < (commaList (pks.map (UnlockKey.marshalText q)) ++ 93 :: 44 :: (decimal sigs.toNat ++ 41 :: rest)).length + 1 := by
    have hlong := (@length_le_commaList (pks.map (UnlockKey.marshalText q))).1
    rw [List.length_map] at hlong
    rw [List.length_append,List.length_cons]
    omega
  have hread := (readList_spec hreads (readToken_keeps _ _) hcomma hsteps []).1 fun _ _ => trivial
  have hleaf : leafPolicies.find? (fun leaf => ascii leaf.1 = ascii "uc") = none := rfl
  rw [policyArguments,hleaf]
  dsimp only
  rw [if_neg (by decide +kernel),if_pos rfl,readToken_word (word_decimal _) (by decide) hfirst (parseUint_decimal timelock.toNat_lt)]
  dsimp only
  rw [consume_ready hfirst,consume_ready hopen,hread]
  dsimp only
  rw [consume_ready hclose,consume_ready hcomma,UInt64.ofNat_toNat,List.nil_append]

end Arguments

/-- What is written for `p` is read back as `p`, unless it has a number of signatures that is too
large. -/
structure Parses (q : Quoting) (depth : ℕ) (p : SpendPolicy) : Prop where
  ok : p.Fits → ∀ rest, Printable rest → parsePolicy q depth ⟨p.string q ++ rest, none⟩ = (p, ⟨rest, none⟩)
  stops : ¬ p.Fits → ∀ rest, Printable rest → (parsePolicy q depth ⟨p.string q ++ rest, none⟩).2.err = some "value out of range"

theorem Parses.reads (h : Parses q depth p) (hp : p.Textual) :
    Reads (parsePolicy q depth) (SpendPolicy.string q) SpendPolicy.Fits "value out of range" p :=
  ⟨fun hfits d _ rest hrest => h.ok hfits (d :: rest) hrest,fun hfits d _ rest hrest => h.stops hfits (d :: rest) hrest,
    p.string_start,p.printable_string hp⟩

theorem Parses.of_arguments (hname : name ∈ policyNames)
    (hstring : p.string q = policyCall name arguments) (harguments : Printable arguments)
    (hok : p.Fits → ∀ rest, Printable (41 :: rest) →
      policyArguments q (parsePolicy q depth) (ascii name) ⟨arguments ++ 41 :: rest, none⟩ = (p, ⟨41 :: rest, none⟩))
    (hstops : ¬ p.Fits → ∀ rest, Printable (41 :: rest) →
      (policyArguments q (parsePolicy q depth) (ascii name) ⟨arguments ++ 41 :: rest, none⟩).2.err = some "value out of range") :
    Parses q (depth + 1) p := by
  constructor
  · intro hfits rest hrest
    have hclose : Printable (41 :: rest) := printable_cons.mpr ⟨by decide,hrest⟩
    rw [hstring,parsePolicy_call hname harguments hrest,hok hfits rest hclose]
    dsimp only
    rw [consume_ready hclose]
  · intro hfits rest hrest
    have hclose : Printable (41 :: rest) := printable_cons.mpr ⟨by decide,hrest⟩
    rw [hstring,parsePolicy_call hname harguments hrest]
    exact consume_keeps (hstops hfits rest hclose) 41

theorem SpendPolicy.fits_leaf {p : SpendPolicy} (hleaf : ∀ n ps, p ≠ .threshold n ps) (huc : ∀ uc, p ≠ .unlockConditions uc) : p.Fits :=
  fun uc h => (huc uc ((SpendPolicy.inside_leaf hleaf).mp h).symm).elim

theorem Parses.of_leaf
    (hname : name ∈ policyNames) (hstring : p.string q = policyCall name t) (ht : Word t) (hfits : p.Fits)
    (hleaf : leafPolicies.find? (fun leaf => ascii leaf.1 = ascii name) = some leaf) (hread : leaf.2 t = .ok p) :
    Parses q (depth + 1) p :=
  Parses.of_arguments hname hstring ht.printable (fun _ _ hrest => policyArguments_leaf hleaf ht hrest hread) fun h => (h hfits).elim

theorem SpendPolicy.fits_unlockConditions : (SpendPolicy.unlockConditions uc).Fits ↔ uc.signaturesRequired.toNat < 2^8 := by
  have hle : uc.signaturesRequired ≤ 255 ↔ uc.signaturesRequired.toNat < 2^8 := by
    rw [UInt64.le_iff_toNat_le,show (255 : UInt64).toNat = 255 from rfl]
    omega
  rw [← hle]
  constructor
  · exact fun h => h uc .here
  · rintro h uc' (_ | _)
    exact h

theorem parses_unlockConditions (h : (SpendPolicy.unlockConditions uc).Textual) :
    Parses q (depth + 1) (.unlockConditions uc) := by
  have hkeys := h.2 uc .here
  have hprint := SpendPolicy.printable_string (q := q) _ h
  rw [SpendPolicy.string,policyCall,printable_append,printable_cons,printable_append] at hprint
  have hgroup (rest : Bytes) : (decimal uc.timelock.toNat ++ 44 :: 91 :: (commaList (uc.publicKeys.map (UnlockKey.marshalText q)) ++
      93 :: 44 :: decimal uc.signaturesRequired.toNat)) ++ 41 :: rest =
      decimal uc.timelock.toNat ++ 44 :: 91 :: (commaList (uc.publicKeys.map (UnlockKey.marshalText q)) ++
        93 :: 44 :: (decimal uc.signaturesRequired.toNat ++ 41 :: rest)) := by
    simp only [List.append_assoc,List.cons_append]
  refine Parses.of_arguments (by decide) (SpendPolicy.string.eq_8 q uc) hprint.2.2.1 ?_ ?_
  · intro hfits rest hrest
    rw [hgroup,policyArguments_unlockConditions _ hkeys _ hrest,
      readToken_word (word_decimal _) (by decide) hrest (parseUint_decimal (SpendPolicy.fits_unlockConditions.mp hfits))]
    dsimp only
    rw [UInt64.ofNat_toNat]
  · intro hfits rest hrest
    rw [SpendPolicy.fits_unlockConditions,not_lt] at hfits
    rw [hgroup,policyArguments_unlockConditions _ hkeys _ hrest]
    exact readToken_error (word_decimal _) (by decide) hrest (parseUint_overflow hfits)

theorem parses_threshold (h : (SpendPolicy.threshold n ps).Textual)
    (hps : ∀ p ∈ ps, Parses q depth p) : Parses q (depth + 1) (.threshold n ps) := by
  have hreads : ∀ p ∈ ps, Reads (parsePolicy q depth) (SpendPolicy.string q) SpendPolicy.Fits "value out of range" p :=
    fun p hp => (hps p hp).reads (h.sub p hp)
  have hprint := SpendPolicy.printable_string (q := q) _ h
  rw [SpendPolicy.string,SpendPolicy.strings_eq,policyCall,printable_append,printable_cons,printable_append] at hprint
  have hstring : (SpendPolicy.threshold n ps).string q =
      policyCall "thresh" (decimal n.toNat ++ 44 :: 91 :: (commaList (ps.map (SpendPolicy.string q)) ++ [93])) := by
    rw [SpendPolicy.string,SpendPolicy.strings_eq]
  have hlist {rest : Bytes} (hrest : Printable (41 :: rest)) : Printable (commaList (ps.map (SpendPolicy.string q)) ++ 93 :: 41 :: rest) :=
    printable_append.mpr ⟨printable_commaList (List.forall_mem_map.mpr fun p hp => (hreads p hp).printable),
      printable_cons.mpr ⟨by decide,hrest⟩⟩
  have hsteps (rest : Bytes) : ps.length < (commaList (ps.map (SpendPolicy.string q)) ++ 93 :: 41 :: rest).length + 1 := by
    have hlong := (@length_le_commaList (ps.map (SpendPolicy.string q))).1
    rw [List.length_map] at hlong
    rw [List.length_append,List.length_cons]
    omega
  have hgroup (rest : Bytes) : (decimal n.toNat ++ 44 :: 91 :: (commaList (ps.map (SpendPolicy.string q)) ++ [93])) ++ 41 :: rest =
      decimal n.toNat ++ 44 :: 91 :: (commaList (ps.map (SpendPolicy.string q)) ++ 93 :: 41 :: rest) := by
    simp only [List.append_assoc,List.cons_append,List.nil_append]
  refine Parses.of_arguments (by decide) hstring hprint.2.2.1 ?_ ?_
  · intro hfits rest hrest
    rw [hgroup,policyArguments_threshold n (hlist hrest),
      (readList_spec hreads (parsePolicy_keeps depth) hrest (hsteps rest) []).1 (SpendPolicy.fits_threshold.mp hfits)]
    dsimp only
    rw [consume_ready (printable_cons.mpr ⟨by decide,hrest⟩),List.nil_append]
  · intro hfits rest hrest
    rw [SpendPolicy.fits_threshold] at hfits
    rw [hgroup,policyArguments_threshold n (hlist hrest)]
    exact consume_keeps ((readList_spec hreads (parsePolicy_keeps depth) hrest (hsteps rest) []).2 hfits) 93

theorem SpendPolicy.parses (p : SpendPolicy) (h : p.Textual) (hdepth : (p.string q).length ≤ depth) : Parses q depth p := by
  have hsucc : ∀ {p : SpendPolicy} {depth : ℕ}, (p.string q).length ≤ depth → ∃ d, depth = d + 1 := by
    intro p depth hdepth
    obtain ⟨b,t,htext,-⟩ := p.string_start (q := q)
    rw [htext,List.length_cons] at hdepth
    exact Nat.exists_eq_add_one.mpr (by omega)
  induction p using SpendPolicy.induct generalizing depth with
  | leaf p hleaf =>
    obtain ⟨depth,rfl⟩ := hsucc hdepth
    have hfits := @SpendPolicy.fits_leaf p hleaf
    cases p with
    | above height =>
      refine .of_leaf (by decide) (SpendPolicy.string.eq_1 q height) (word_decimal _) (hfits (by simp)) rfl ?_
      dsimp only
      rw [parseUint_decimal height.toNat_lt,Except.map,UInt64.ofNat_toNat]
    | after t =>
      refine .of_leaf (by decide) (SpendPolicy.string.eq_2 q t) (word_bigString _) (hfits (by simp)) rfl ?_
      exact congrArg (Except.map SpendPolicy.after) (parseUnix_unix (h.1 t .here))
    | publicKey pk =>
      refine .of_leaf (by decide) (SpendPolicy.string.eq_3 q pk) (word_writeHex _) (hfits (by simp)) rfl ?_
      exact congrArg (Except.map SpendPolicy.publicKey) (parsePubkey_writeHex pk)
    | slhdsa pk =>
      refine .of_leaf (by decide) (SpendPolicy.string.eq_5 q pk) (word_writeHex _) (hfits (by simp)) rfl ?_
      exact congrArg (Except.map SpendPolicy.slhdsa) (parsePubkey_writeHex pk)
    | hash x =>
      refine .of_leaf (by decide) (SpendPolicy.string.eq_4 q x) (word_writeHex _) (hfits (by simp)) rfl ?_
      exact congrArg (Except.map SpendPolicy.hash) (parsePubkey_writeHex x)
    | opaqueHash a =>
      refine .of_leaf (by decide) (SpendPolicy.string.eq_7 q a) (word_writeHex _) (hfits (by simp)) rfl ?_
      exact congrArg (Except.map SpendPolicy.opaqueHash) (parsePubkey_writeHex a)
    | threshold n ps => exact (hleaf n ps rfl).elim
    | unlockConditions uc => exact parses_unlockConditions h
  | threshold n ps ih =>
    obtain ⟨depth,rfl⟩ := hsucc hdepth
    -- the text of a subpolicy is shorter than that of the threshold
    refine parses_threshold h fun p hp => ih p hp (h.sub p hp) ?_
    have hlong := (@length_le_commaList (ps.map (SpendPolicy.string q))).2 _ (List.mem_map_of_mem hp)
    rw [SpendPolicy.string,SpendPolicy.strings_eq,policyCall] at hdepth
    simp only [List.length_append,List.length_cons] at hdepth
    omega

/-- A policy is read back from its text exactly if no unlock conditions in it ask for more than
255 signatures: the number is written as 64 bits wide, but read as 8 bits wide. -/
theorem parseSpendPolicy_string_iff (q : Quoting) (p : SpendPolicy) (htime : ∀ t, SpendPolicy.Inside (.after t) p → t.WholeSecond)
    (hkeys : ∀ uc, SpendPolicy.Inside (.unlockConditions uc) p → ∀ k ∈ uc.publicKeys, k.algorithm = specifierEd25519) :
    parseSpendPolicy q (p.string q) = .ok p ↔ ∀ uc, SpendPolicy.Inside (.unlockConditions uc) p → uc.signaturesRequired ≤ 255 := by
  have hparses : Parses q ((p.string q).length + 1) p := p.parses ⟨htime,hkeys⟩ (Nat.le_succ _)
  have hempty : Printable [] := fun b hb => (List.not_mem_nil hb).elim
  have hok := hparses.ok
  have hstops := hparses.stops
  constructor
  · intro h
    by_contra hfits
    have herr := hstops hfits [] hempty
    rw [List.append_nil] at herr
    rw [parseSpendPolicy] at h
    dsimp only at h
    rw [herr] at h
    cases h
  · intro hfits
    have hread := hok hfits [] hempty
    rw [List.append_nil] at hread
    rw [parseSpendPolicy,hread]
    dsimp only
    rw [if_neg (not_not.mpr rfl)]

def sampleNested : SpendPolicy :=
  .threshold 2 [.above 5, .threshold 1 [.after (Time.ofUnix 1700000000), .unlockConditions ⟨7, [⟨specifierEd25519, [1, 2]⟩], 255⟩], .threshold 0 []]

theorem SpendPolicy.inside_sampleNested (hx : ∀ n ps, x ≠ .threshold n ps) (h : Inside x sampleNested) :
    x = .above 5 ∨ x = .after (Time.ofUnix 1700000000) ∨ x = .unlockConditions ⟨7, [⟨specifierEd25519, [1, 2]⟩], 255⟩ := by
  simp only [sampleNested,inside_threshold,List.mem_cons,List.not_mem_nil,or_false,exists_eq_or_imp,exists_eq_left,hx,false_or,
    false_and,exists_false,inside_leaf (by simp : ∀ n ps, SpendPolicy.above 5 ≠ .threshold n ps),
    inside_leaf (by simp : ∀ n ps, SpendPolicy.after (Time.ofUnix 1700000000) ≠ .threshold n ps),
    inside_leaf (by simp : ∀ n ps, SpendPolicy.unlockConditions ⟨7,[⟨specifierEd25519,[1,2]⟩],255⟩ ≠ .threshold n ps)] at h
  exact h

theorem parseSpendPolicy_string_iff_nested :
    parseSpendPolicy ⟨id, some⟩ (sampleNested.string ⟨id, some⟩) = .ok sampleNested := by
  have huc : ∀ uc, SpendPolicy.Inside (.unlockConditions uc) sampleNested → uc = ⟨7,[⟨specifierEd25519,[1,2]⟩],255⟩ := by
    intro uc h
    simpa using SpendPolicy.inside_sampleNested (by simp) h
  refine (parseSpendPolicy_string_iff ⟨id,some⟩ sampleNested ?_ ?_).mpr ?_
  · intro t h
    have ht : t = Time.ofUnix 1700000000 := by simpa using SpendPolicy.inside_sampleNested (by simp) h
    rw [ht]
    rfl
  · intro uc h k hk
    rw [huc uc h,List.mem_singleton] at hk
    rw [hk]
  · intro uc h
    rw [huc uc h]
    decide

def sampleCrowded : SpendPolicy := .unlockConditions ⟨0, [], 256⟩

theorem parseSpendPolicy_crowded :
    sampleCrowded.string ⟨id, some⟩ = ascii "uc(0,[],256)" ∧
      parseSpendPolicy ⟨id, some⟩ (sampleCrowded.string ⟨id, some⟩) = Outcome.fail "value out of range" := by
  constructor
  · decide +kernel
  · rfl

end Trees

end QdayNode
