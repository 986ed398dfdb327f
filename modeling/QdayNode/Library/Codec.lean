import QdayNode.Library.ByteString
import QdayNode.Library.Outcome

/-!
# Decoders

A decoder takes a stream to a value and the rest of the stream, or fails.  A length
prefix is checked against the bytes that are left before anything is read behind it.
A decoder reads an encoder if it gets back each value that was written, whatever
follows it; values whose encoding would not fit the 64-bit length fields are left out.
-/
namespace ByteString
open Outcome

variable {n : ℕ}

/-- A computation that consumes a stream. -/
abbrev Decoder (α : Type) := StateT Bytes Outcome α

namespace Decoder

variable {α β : Type}

def fail (msg : String) : Decoder α := fun _ => Outcome.fail msg

def call (x : Outcome α) : Decoder α := fun s => x.map (·, s)

def readFixed (n : ℕ) : Decoder (FixedBytes n) := fun s =>
  if h : n ≤ s.length then .ok (⟨s.take n, List.length_take_of_le h⟩, s.drop n)
  else Outcome.fail "unexpected EOF"

def readUint8 : Decoder UInt8
  | [] => Outcome.fail "unexpected EOF"
  | b :: s => .ok (b, s)

def readUint64 : Decoder UInt64 := do
  let b ← readFixed 8
  return UInt64.ofNat (ofLittleEndian b.val)

/-- A length prefix that the rest of the stream can hold. -/
def readLength : Decoder ℕ := do
  let n ← readUint64
  let s ← get
  if s.length < n.toNat then fail "encoded object contains invalid length prefix" else return n.toNat

def readBytes : Decoder Bytes := do
  let n ← readLength
  let b ← readFixed n
  return b.val

def readCount (dec : Decoder α) : ℕ → Decoder (List α)
  | 0 => return []
  | n+1 => do
      let a ← dec
      let l ← readCount dec n
      return a :: l

def readList (dec : Decoder α) : Decoder (List α) := do
  let n ← readLength
  readCount dec n

/-- A field that is there only if its bit is set. -/
def readIf (present : Bool) (absent : α) (dec : Decoder α) : Decoder α :=
  if present then dec else return absent

section Run

@[simp] theorem run_bind (dec : Decoder α) (f : α → Decoder β) (s : Bytes) :
    (dec >>= f).run s = dec.run s >>= fun p => (f p.1).run p.2 := rfl

@[simp] theorem run_pure (a : α) (s : Bytes) : (pure a : Decoder α).run s = .ok (a, s) := rfl

@[simp] theorem run_call (a : α) (s : Bytes) : (call (.ok a)).run s = .ok (a, s) := rfl

@[simp] theorem run_get (s : Bytes) : (get : Decoder Bytes).run s = .ok (s, s) := rfl

@[simp] theorem run_readFixed (b : FixedBytes n) (r : Bytes) :
    (readFixed n).run (b.val ++ r) = .ok (b, r) := by
  have hle : n ≤ (b.val ++ r).length := by simp
  have htake : (b.val ++ r).take n = b.val := List.take_left' b.property
  have hdrop : (b.val ++ r).drop n = r := List.drop_left' b.property
  simp only [readFixed,StateT.run,hle,dif_pos,htake,hdrop]

@[simp] theorem run_readUint8 (b : UInt8) (r : Bytes) : readUint8.run (b :: r) = .ok (b, r) := rfl

@[simp] theorem run_readUint64 (u : UInt64) (r : Bytes) : readUint64.run (encodeUint64 u ++ r) = .ok (u, r) := by
  have hread := run_readFixed ⟨encodeUint64 u,length_encodeUint64 u⟩ r
  have hback : UInt64.ofNat (ofLittleEndian (encodeUint64 u)) = u := by
    rw [encodeUint64,ofLittleEndian_littleEndian,Nat.mod_eq_of_lt (by simpa using u.toNat_lt),UInt64.ofNat_toNat]
  simp only [readUint64,run_bind,hread,ok_bind,hback,run_pure]

theorem run_readLength {r : Bytes} (hn : n < 2^64) (hr : n ≤ r.length) :
    readLength.run (encodeUint64 (UInt64.ofNat n) ++ r) = .ok (n, r) := by
  have hword : (UInt64.ofNat n).toNat = n := by rw [UInt64.toNat_ofNat',Nat.mod_eq_of_lt hn]
  simp only [readLength,run_bind,run_readUint64,ok_bind,run_get,hword,not_lt.mpr hr,if_false,run_pure]

theorem run_readBytes {b : Bytes} (hb : (encodeBytes b).length < 2^64) (r : Bytes) :
    readBytes.run (encodeBytes b ++ r) = .ok (b, r) := by
  have hlen : b.length < 2^64 := by
    rw [length_encodeBytes] at hb
    omega
  have hread := run_readFixed ⟨b,rfl⟩ r
  simp only [readBytes,encodeBytes,List.append_assoc,run_bind,run_readLength hlen (r := b ++ r) (by simp),
    ok_bind,hread,run_pure]

end Run

def Reads (P : α → Prop) (enc : α → Bytes) (dec : Decoder α) : Prop :=
  ∀ a r, P a → (enc a).length < 2^64 → dec.run (enc a ++ r) = .ok (a, r)

variable {P : α → Prop} {enc : α → Bytes}

theorem Reads.prefixCodeOn {dec : Decoder α} (h : Reads P enc dec) :
    PrefixCodeOn (fun a => P a ∧ (enc a).length < 2^64) enc := by
  intro a b r r' ha hb heq
  have hread := h a r ha.1 ha.2
  rw [heq,h b r' hb.1 hb.2] at hread
  obtain ⟨hval,hrest⟩ := ok_pair hread
  exact ⟨hval.symm,hrest.symm⟩

theorem Reads.readCount {dec : Decoder α} (h : Reads P enc dec) {l : List α}
    (hl : ∀ a ∈ l, P a) (hlen : (l.flatMap enc).length < 2^64) (r : Bytes) :
    (readCount dec l.length).run (l.flatMap enc ++ r) = .ok (l, r) := by
  induction l with
  | nil => rfl
  | cons a l ih =>
    rw [List.forall_mem_cons] at hl
    rw [List.flatMap_cons,List.length_append] at hlen
    have hhead := h a (l.flatMap enc ++ r) hl.1 (by omega)
    have htail := ih hl.2 (by omega)
    simp only [List.length_cons,List.flatMap_cons,List.append_assoc,Decoder.readCount,run_bind,hhead,
      ok_bind,htail,run_pure]

theorem length_le_flatMap (hpos : ∀ a, 0 < (enc a).length) (l : List α) :
    l.length ≤ (l.flatMap enc).length := by
  induction l with
  | nil => exact le_rfl
  | cons a l ih =>
    have := hpos a
    rw [List.flatMap_cons,List.length_append,List.length_cons]
    omega

theorem Reads.list {dec : Decoder α} (h : Reads P enc dec)
    (hpos : ∀ a, 0 < (enc a).length) : Reads (fun l : List α => ∀ a ∈ l, P a) (encodeList enc) (readList dec) := by
  intro l r hl hlen
  have hitems := length_le_flatMap hpos l
  rw [encodeList,List.length_append,length_encodeUint64] at hlen
  have hlead : readLength.run (encodeUint64 (UInt64.ofNat l.length) ++ (l.flatMap enc ++ r)) =
      .ok (l.length, l.flatMap enc ++ r) := run_readLength (by omega) (by rw [List.length_append]; omega)
  simp only [readList,encodeList,List.append_assoc,run_bind,hlead,ok_bind,
    h.readCount hl (show (l.flatMap enc).length < 2^64 by omega)]

theorem run_readList_fixed (hn : 0 < n) {l : List (FixedBytes n)}
    (hlen : (encodeList Subtype.val l).length < 2^64) (r : Bytes) :
    (readList (readFixed n)).run (encodeList Subtype.val l ++ r) = .ok (l, r) := by
  have hreads : Reads (fun _ => True) (fun b : FixedBytes n => b.val) (readFixed n) := fun b r _ _ => run_readFixed b r
  exact hreads.list (fun b => by rwa [b.property]) l r (fun _ _ => trivial) hlen

theorem run_readIf {dec : Decoder α} (h : Reads P enc dec) (absent : α) {a : α}
    (present : Bool) (ha : present = true → P a) (habsent : present = false → a = absent)
    (hlen : (if present then enc a else []).length < 2^64) (r : Bytes) :
    (readIf present absent dec).run ((if present then enc a else []) ++ r) = .ok (a, r) := by
  cases present with
  | false => exact congrArg (fun a => Except.ok (a, r)) (habsent rfl).symm
  | true => exact h a r (ha rfl) hlen

section Yields

def Yields (P : α → Prop) (dec : Decoder α) : Prop := ∀ s a r, dec.run s = .ok (a, r) → P a

variable {P : α → Prop} {Q : β → Prop} {dec : Decoder α}

theorem yields_fail (msg : String) : Yields P (fail msg) := by
  intro s a r h
  cases h

theorem yields_pure {a : α} (h : P a) : Yields P (pure a) := by
  rintro s _ _ ⟨⟩
  exact h

theorem yields_call {x : Outcome α} (h : ∀ a, x = .ok a → P a) : Yields P (call x) := by
  intro s a r hcall
  obtain ⟨_,hx,⟨⟩⟩ := map_eq_ok.mp hcall
  exact h a hx

theorem Yields.bind {f : α → Decoder β} (h : Yields P dec) (hf : ∀ a, P a → Yields Q (f a)) : Yields Q (dec >>= f) := by
  intro s b r hrun
  obtain ⟨⟨a,s'⟩,hdec,hrest⟩ := bind_eq_ok.mp hrun
  exact hf a (h s a s' hdec) s' b r hrest

theorem yields_bind {f : α → Decoder β} (hf : ∀ a, Yields Q (f a)) : Yields Q (dec >>= f) := by
  intro s b r hrun
  obtain ⟨⟨a,s'⟩,-,hrest⟩ := bind_eq_ok.mp hrun
  exact hf a s' b r hrest

theorem Yields.readCount (h : Yields P dec) (n : ℕ) : Yields (fun l : List α => l.length = n ∧ ∀ a ∈ l, P a) (readCount dec n) := by
  induction n with
  | zero => exact yields_pure ⟨rfl,fun a ha => by cases ha⟩
  | succ n ih =>
    refine h.bind fun a ha => ih.bind fun l hl => yields_pure ⟨?_,?_⟩
    · rw [List.length_cons,hl.1]
    · exact List.forall_mem_cons.mpr ⟨ha,hl.2⟩

theorem Yields.readList (h : Yields P dec) : Yields (fun l : List α => ∀ a ∈ l, P a) (readList dec) :=
  yields_bind fun n s l r hrun => (h.readCount n s l r hrun).2

theorem Yields.readIf (h : Yields P dec) {absent : α} (habsent : P absent) (present : Bool) :
    Yields P (readIf present absent dec) := by
  cases present with
  | false => exact yields_pure habsent
  | true => exact h

end Yields

section Safe

/-- The decoder never panics, whatever the stream holds. -/
class Safe (dec : Decoder α) : Prop where
  returns : ∀ s, (dec.run s).Returns

variable {dec : Decoder α}

instance safe_fail (msg : String) : Safe (fail msg : Decoder α) := ⟨fun _ => returns_fail msg⟩

instance safe_pure (a : α) : Safe (pure a : Decoder α) := ⟨fun _ => returns_ok _⟩

instance safe_get : Safe (get : Decoder Bytes) := ⟨fun _ => returns_ok _⟩

instance safe_bind {f : α → Decoder β} [h : Safe dec] [hf : ∀ a, Safe (f a)] : Safe (dec >>= f) where
  returns s := (h.returns s).bind fun p _ => (hf p.1).returns p.2

instance safe_map {f : α → β} [h : Safe dec] : Safe (f <$> dec) where
  returns s := (h.returns s).bind fun p _ => returns_ok (f p.1, p.2)

instance safe_ite {p : Prop} [Decidable p] {dec' : Decoder α} [h : Safe dec] [h' : Safe dec'] :
    Safe (if p then dec else dec') := by
  split
  · exact h
  · exact h'

theorem safe_call {x : Outcome α} (h : x.Returns) : Safe (call x) where
  returns _ := h.bind fun _ _ => returns_ok _

instance safe_readFixed (n : ℕ) : Safe (readFixed n) where
  returns s := by
    unfold readFixed
    change Outcome.Returns (dite _ _ _)
    split
    · exact returns_ok _
    · exact returns_fail _

instance safe_readUint8 : Safe readUint8 where
  returns
    | [] => returns_fail _
    | _ :: _ => returns_ok _

instance safe_readUint64 : Safe readUint64 := by
  unfold readUint64
  infer_instance

instance safe_readLength : Safe readLength := by
  unfold readLength
  infer_instance

instance safe_readBytes : Safe readBytes := by
  unfold readBytes
  infer_instance

instance safe_readCount [Safe dec] (n : ℕ) : Safe (readCount dec n) := by
  induction n with
  | zero => exact safe_pure []
  | succ n ih =>
    unfold readCount
    infer_instance

instance safe_readList [Safe dec] : Safe (readList dec) := by
  unfold readList
  infer_instance

instance safe_readIf [h : Safe dec] (present : Bool) (absent : α) : Safe (readIf present absent dec) := by
  unfold readIf
  infer_instance

end Safe

end Decoder

end ByteString
