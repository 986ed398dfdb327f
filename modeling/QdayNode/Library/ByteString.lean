import Mathlib

/-!
# Byte strings and prefix codes

Little- and big-endian numerals, byte strings of a fixed length, and encoders from
whose output the encoded value and the rest of the stream can both be recovered.
An encoder is a prefix code on a set of values; the restriction matters for
length-prefixed lists, whose length field holds only 64 bits.
-/
namespace ByteString

abbrev Bytes := List UInt8

def littleEndian : ℕ → ℕ → Bytes
  | 0, _ => []
  | k+1, x => UInt8.ofNat (x % 256) :: littleEndian k (x / 256)

def ofLittleEndian : Bytes → ℕ
  | [] => 0
  | b :: bs => b.toNat + 256 * ofLittleEndian bs

def bigEndian (k x : ℕ) : Bytes := (littleEndian k x).reverse

def ofBigEndian (b : Bytes) : ℕ := ofLittleEndian b.reverse

@[simp] theorem length_littleEndian (k x : ℕ) : (littleEndian k x).length = k := by
  induction k generalizing x with
  | zero => rfl
  | succ k ih => simp [littleEndian,ih]

@[simp] theorem length_bigEndian (k x : ℕ) : (bigEndian k x).length = k := by
  simp [bigEndian]

theorem ofLittleEndian_littleEndian (k x : ℕ) :
    ofLittleEndian (littleEndian k x) = x % 256^k := by
  induction k generalizing x with
  | zero => simp [littleEndian,ofLittleEndian,Nat.mod_one]
  | succ k ih =>
    rw [littleEndian,ofLittleEndian,ih,pow_succ',Nat.mod_mul,UInt8.toNat_ofNat']
    simp

theorem littleEndian_ofLittleEndian (b : Bytes) : littleEndian b.length (ofLittleEndian b) = b := by
  induction b with
  | nil => rfl
  | cons x xs ih =>
    have hlt := x.toNat_lt
    have hmod : (x.toNat + 256 * ofLittleEndian xs) % 256 = x.toNat := by omega
    have hdiv : (x.toNat + 256 * ofLittleEndian xs) / 256 = ofLittleEndian xs := by omega
    rw [List.length_cons,ofLittleEndian,littleEndian,hmod,hdiv,ih,UInt8.ofNat_toNat]

theorem littleEndian_injOn {k x y : ℕ} (hx : x < 256^k) (hy : y < 256^k)
    (h : littleEndian k x = littleEndian k y) : x = y := by
  have := congrArg ofLittleEndian h
  rwa [ofLittleEndian_littleEndian,ofLittleEndian_littleEndian,Nat.mod_eq_of_lt hx,
    Nat.mod_eq_of_lt hy] at this

theorem ofLittleEndian_lt (b : Bytes) : ofLittleEndian b < 256^b.length := by
  induction b with
  | nil => simp [ofLittleEndian]
  | cons x xs ih =>
    have := x.toNat_lt
    rw [ofLittleEndian,List.length_cons,pow_succ]
    omega

/-- A byte string of a fixed length. -/
abbrev FixedBytes (n : ℕ) := {b : Bytes // b.length = n}

namespace FixedBytes

def zero (n : ℕ) : FixedBytes n := ⟨List.replicate n 0, List.length_replicate⟩

instance (n : ℕ) : Inhabited (FixedBytes n) := ⟨zero n⟩

def ofNat (n x : ℕ) : FixedBytes n := ⟨bigEndian n x, length_bigEndian n x⟩

def toNat {n : ℕ} (b : FixedBytes n) : ℕ := ofBigEndian b.val

theorem toNat_lt {n : ℕ} (b : FixedBytes n) : b.toNat < 256^n := by
  have h := ofLittleEndian_lt b.val.reverse
  rwa [List.length_reverse,b.property] at h

@[simp] theorem length_val {n : ℕ} (b : FixedBytes n) : b.val.length = n := b.property

end FixedBytes

section PrefixCodes

variable {α β : Type*}

/-- On the values in `P`, what `enc` wrote can be read back from the front of any stream. -/
def PrefixCodeOn (P : α → Prop) (enc : α → Bytes) : Prop :=
  ∀ ⦃a b : α⦄ ⦃r r' : Bytes⦄, P a → P b → enc a ++ r = enc b ++ r' → a = b ∧ r = r'

def PrefixCode (enc : α → Bytes) : Prop := PrefixCodeOn (fun _ => True) enc

variable {enc : α → Bytes} {P : α → Prop} {n : ℕ}

theorem PrefixCode.apply (h : PrefixCode enc) {a b : α} {r r' : Bytes}
    (heq : enc a ++ r = enc b ++ r') : a = b ∧ r = r' := h trivial trivial heq

theorem PrefixCodeOn.inj (h : PrefixCodeOn P enc) {a b : α}
    (ha : P a) (hb : P b) (heq : enc a = enc b) : a = b :=
  (@h a b [] [] ha hb (by rw [heq])).1

theorem prefixCode_of_length (hlen : ∀ a, (enc a).length = n)
    (hinj : Function.Injective enc) : PrefixCode enc := by
  intro a b r r' _ _ heq
  obtain ⟨hab,hr⟩ := List.append_inj heq (by rw [hlen,hlen])
  exact ⟨hinj hab,hr⟩

theorem prefixCode_fixedBytes (n : ℕ) : PrefixCode (fun b : FixedBytes n => b.val) :=
  prefixCode_of_length (fun b => b.property) Subtype.val_injective

def encodeUint64 (u : UInt64) : Bytes := littleEndian 8 u.toNat

@[simp] theorem length_encodeUint64 (u : UInt64) : (encodeUint64 u).length = 8 :=
  length_littleEndian 8 _

theorem encodeUint64_injective : Function.Injective encodeUint64 := fun u v h =>
  UInt64.toNat_inj.mp (littleEndian_injOn (by simpa using u.toNat_lt) (by simpa using v.toNat_lt) h)

theorem prefixCode_encodeUint64 : PrefixCode encodeUint64 :=
  prefixCode_of_length length_encodeUint64 encodeUint64_injective

def encodeBool (b : Bool) : Bytes := [if b then 1 else 0]

theorem prefixCode_encodeBool : PrefixCode encodeBool :=
  prefixCode_of_length (fun _ => rfl) (by decide)

def encodeList (enc : α → Bytes) (l : List α) : Bytes :=
  encodeUint64 (UInt64.ofNat l.length) ++ l.flatMap enc

def encodeBytes (b : Bytes) : Bytes := encodeUint64 (UInt64.ofNat b.length) ++ b

def encodeOption (enc : α → Bytes) : Option α → Bytes
  | none => encodeBool false
  | some a => encodeBool true ++ enc a

theorem PrefixCodeOn.flatMap (h : PrefixCodeOn P enc)
    {l m : List α} (hl : ∀ a ∈ l, P a) (hm : ∀ a ∈ m, P a) (hlen : l.length = m.length)
    {r r' : Bytes} (heq : l.flatMap enc ++ r = m.flatMap enc ++ r') : l = m ∧ r = r' := by
  induction l generalizing m with
  | nil =>
    obtain rfl : m = [] := List.length_eq_zero_iff.mp hlen.symm
    exact ⟨rfl,heq⟩
  | cons a l ih =>
    cases m with
    | nil => cases hlen
    | cons b m =>
      rw [List.forall_mem_cons] at hl hm
      simp only [List.flatMap_cons,List.append_assoc] at heq
      obtain ⟨rfl,hrest⟩ := h hl.1 hm.1 heq
      obtain ⟨rfl,hr⟩ := ih hl.2 hm.2 (Nat.succ.inj hlen) hrest
      exact ⟨rfl,hr⟩

theorem length_eq_of_encode {m : ℕ} (hm : m < 2^64) (hn : n < 2^64)
    (h : UInt64.ofNat m = UInt64.ofNat n) : m = n := by
  have := congrArg UInt64.toNat h
  rwa [UInt64.toNat_ofNat',UInt64.toNat_ofNat',Nat.mod_eq_of_lt hm,Nat.mod_eq_of_lt hn] at this

theorem PrefixCodeOn.list (h : PrefixCodeOn P enc) :
    PrefixCodeOn (fun l : List α => l.length < 2^64 ∧ ∀ a ∈ l, P a) (encodeList enc) := by
  intro l m r r' hl hm heq
  simp only [encodeList,List.append_assoc] at heq
  obtain ⟨hlen,hrest⟩ := prefixCode_encodeUint64.apply heq
  exact h.flatMap hl.2 hm.2 (length_eq_of_encode hl.1 hm.1 hlen) hrest

theorem prefixCode_encodeBytes :
    PrefixCodeOn (fun b : Bytes => b.length < 2^64) encodeBytes := by
  intro b c r r' hb hc heq
  simp only [encodeBytes,List.append_assoc] at heq
  obtain ⟨hlen,hrest⟩ := prefixCode_encodeUint64.apply heq
  exact List.append_inj hrest (length_eq_of_encode hb hc hlen)

@[simp] theorem length_encodeList (enc : α → Bytes) (l : List α) :
    (encodeList enc l).length = 8 + (l.map fun a => (enc a).length).sum := by
  simp [encodeList,List.length_flatMap]

@[simp] theorem length_encodeBytes (b : Bytes) : (encodeBytes b).length = 8 + b.length := by
  simp [encodeBytes]

end PrefixCodes

/-- The digest is collision-free on the messages actually hashed, and none of them hashes to the
sentinel.  No function into fixed-length strings can be injective on all messages. -/
structure IdealOn {D : Type*} (digest : Bytes → D) (sentinel : D) (messages : Set Bytes) : Prop where
  inj : Set.InjOn digest messages
  ne_sentinel : ∀ x ∈ messages, digest x ≠ sentinel

theorem injOn_of_nodup {α D : Type*} [DecidableEq α] {digest : α → D} {l : List α}
    (h : (l.dedup.map digest).Nodup) : Set.InjOn digest {x | x ∈ l} := fun _ hx _ hy heq =>
  List.inj_on_of_nodup_map h (List.mem_dedup.mpr hx) (List.mem_dedup.mpr hy) heq

theorem idealOn_of_nodup {D : Type*} {digest : Bytes → D} {sentinel : D} {l : List Bytes}
    (hinj : (l.dedup.map digest).Nodup) (hne : ∀ x ∈ l, digest x ≠ sentinel) :
    IdealOn digest sentinel {x | x ∈ l} := ⟨injOn_of_nodup hinj,hne⟩

end ByteString
