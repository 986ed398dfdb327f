import QdayNode.Types.Currency

/-!
# Hashes, times and the cryptography the node relies on

The hash functions and signature schemes live outside the repository and enter as
parameters.  Times follow Go's `time.Time` as the wire produces it: an int64 count
of seconds that wraps, and nanoseconds.
-/
namespace QdayNode
open ByteString

abbrev Hash256 := FixedBytes 32
instance instLawfulBEqHash256 : LawfulBEq Hash256 := inferInstance

abbrev BlockID := Hash256
abbrev TransactionID := Hash256
abbrev SiacoinOutputID := Hash256
abbrev Address := Hash256
abbrev PublicKey := FixedBytes 32
abbrev Signature := FixedBytes 64
abbrev Specifier := FixedBytes 16

def newSpecifier (name : Bytes) : Specifier :=
  ⟨(name ++ List.replicate 16 0).take 16, by simp⟩

/-- The ASCII bytes of a source literal. -/
def ascii (s : String) : Bytes := s.toList.map fun ch => UInt8.ofNat ch.toNat

/-- The `n` bytes from offset `i`, padded with zeros. -/
def slice (n i : ℕ) (b : Bytes) : FixedBytes n := ⟨((b.drop i).take n ++ List.replicate n 0).take n, by simp⟩

theorem slice_of_le {b : Bytes} {n i : ℕ} (h : i + n ≤ b.length) : (slice n i b).val = (b.drop i).take n := by
  have hlength : ((b.drop i).take n).length = n := by
    rw [List.length_take,List.length_drop]
    omega
  rw [slice]
  exact List.take_left' hlength

def specifierEd25519 : Specifier := newSpecifier (ascii "ed25519")
def specifierSiacoinOutput : Specifier := newSpecifier (ascii "siacoin output")
def specifierSiafundOutput : Specifier := newSpecifier (ascii "siafund output")
def specifierFileContract : Specifier := newSpecifier (ascii "file contract")
def specifierStorageProof : Specifier := newSpecifier (ascii "storage proof")
def specifierFoundation : Specifier := newSpecifier (ascii "foundation")
def specifierEntropy : Specifier := newSpecifier (ascii "entropy")

/-- `golang.org/x/crypto/blake2b`, `crypto/sha256`, `crypto/ed25519`, `circl/sign/slhdsa` and
`filippo.io/edwards25519`, as far as consensus calls them. -/
structure Crypto where
  /-- `blake2b.Sum256`. -/
  sum256 : Bytes → Hash256
  sha256 : Bytes → Hash256
  /-- `ed25519.Verify(pk, message, sig)`. -/
  verifyEd25519 : PublicKey → Bytes → Signature → Bool
  /-- The key unmarshals and `slhdsa.Verify(pk, message, sig, context)` accepts. -/
  verifySLHDSA : FixedBytes 32 → Bytes → Bytes → Bytes → Bool
  /-- The bytes decode to an Edwards25519 point other than the identity. -/
  isCanaryPoint : FixedBytes 32 → Bool
  /-- `VerifyQdayProof(canary, witness)`. -/
  verifyQdayProof : FixedBytes 32 → FixedBytes 32 → Bool

namespace Crypto
variable (c : Crypto)

/-- RFC 6962 node hash. -/
def sumPair (left right : Hash256) : Hash256 := c.sum256 (1 :: (left.val ++ right.val))

/-- `WriteDistinguisher`. -/
def distinguisher (p : String) : Bytes := ascii "sia/" ++ ascii p ++ ascii "|"

end Crypto

/-- A stand-in for the cryptography, to evaluate the model on concrete inputs: a polynomial hash,
and every signature and proof accepted. -/
def sampleCrypto : Crypto where
  sum256 msg := FixedBytes.ofNat 32 (msg.foldl (fun acc b => (acc * 257 + b.toNat + 1) % 2^256) 1)
  sha256 msg := FixedBytes.ofNat 32 (msg.foldl (fun acc b => (acc * 263 + b.toNat + 1) % 2^256) 1)
  verifyEd25519 _ _ _ := true
  verifySLHDSA _ _ _ _ := true
  isCanaryPoint _ := true
  verifyQdayProof _ _ := true

/-- `time.Time` without a monotonic reading: seconds since year 1 and nanoseconds. -/
structure Time where
  sec : Int64
  nsec : Int64
  deriving DecidableEq, Repr

abbrev Duration := Int64

namespace Time

def unixToInternal : Int64 := 62135596800

instance : Inhabited Time := ⟨⟨0, 0⟩⟩

def ofUnix (sec : Int64) : Time := ⟨sec + unixToInternal, 0⟩

def unix (t : Time) : Int64 := t.sec - unixToInternal

def before (t u : Time) : Bool := t.sec < u.sec || (t.sec = u.sec && t.nsec < u.nsec)

def after (t u : Time) : Bool := u.before t

/-- `t.addSec(d)` saturates instead of wrapping. -/
def addSec (sec d : Int64) : Int64 :=
  let sum := sec + d
  if (sum > sec) = (d > 0) then sum
  else if d > 0 then 9223372036854775807
  else -9223372036854775807

def add (t : Time) (d : Duration) : Time :=
  let dsec := d / 1000000000
  let nsec := t.nsec + d % 1000000000
  if nsec ≥ 1000000000 then ⟨addSec t.sec (dsec + 1), nsec - 1000000000⟩
  else if nsec < 0 then ⟨addSec t.sec (dsec - 1), nsec + 1000000000⟩
  else ⟨addSec t.sec dsec, nsec⟩

/-- `t.Sub(u)` saturates at the largest and smallest duration. -/
def sub (t u : Time) : Duration :=
  let d := (t.sec - u.sec) * 1000000000 + (t.nsec - u.nsec)
  if u.add d = t then d
  else if t.before u then Int64.minValue
  else Int64.maxValue

def encode (t : Time) : Bytes := encodeUint64 t.unix.toUInt64

/-- The times `ReadTime` returns. -/
def WholeSecond (t : Time) : Prop := t.nsec = 0

theorem prefixCode_encode : PrefixCodeOn WholeSecond encode := by
  intro t u r r' ht hu heq
  obtain ⟨hunix,hr⟩ := prefixCode_encodeUint64.apply heq
  refine ⟨?_,hr⟩
  have hsec : t.sec = u.sec := by
    have := congrArg UInt64.toInt64 hunix
    simpa [unix] using this
  cases t
  cases u
  simp_all [WholeSecond]

@[simp] theorem length_encode (t : Time) : t.encode.length = 8 := length_encodeUint64 _

end Time

end QdayNode
