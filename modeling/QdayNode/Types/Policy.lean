import QdayNode.Types.Basic
import QdayNode.Library.MerkleTree

/-!
# Spend policies

The policy language of `types/policy.go` with its encoding, its address and the
verification that consumes signatures and preimages from left to right.
-/
namespace QdayNode
open ByteString Outcome

structure UnlockKey where
  algorithm : Specifier
  key : Bytes

structure UnlockConditions where
  timelock : UInt64
  publicKeys : List UnlockKey
  signaturesRequired : UInt64

def UnlockKey.encode (uk : UnlockKey) : Bytes := uk.algorithm.val ++ encodeBytes uk.key

def UnlockConditions.encode (uc : UnlockConditions) : Bytes :=
  encodeUint64 uc.timelock ++ encodeList UnlockKey.encode uc.publicKeys ++ encodeUint64 uc.signaturesRequired

def UnlockConditions.root (c : Crypto) (uc : UnlockConditions) : Address :=
  MerkleTree.merkleRoot c.sumPair default
    ([c.sum256 (0 :: encodeUint64 uc.timelock)] ++
      uc.publicKeys.map (fun key => c.sum256 (0 :: key.encode)) ++
      [c.sum256 (0 :: encodeUint64 uc.signaturesRequired)])

inductive SpendPolicy where
  | above (height : UInt64)
  | after (t : Time)
  | publicKey (pk : PublicKey)
  | slhdsa (pk : FixedBytes 32)
  | hash (h : Hash256)
  | threshold (n : UInt8) (subpolicies : List SpendPolicy)
  | opaqueHash (a : Address)
  | unlockConditions (uc : UnlockConditions)

namespace SpendPolicy

mutual
def encodePolicy : SpendPolicy → Bytes
  | .above height => 1 :: encodeUint64 height
  | .after t => 2 :: t.encode
  | .publicKey pk => 3 :: pk.val
  | .hash h => 4 :: h.val
  | .threshold n subpolicies => 5 :: n :: UInt8.ofNat subpolicies.length :: encodePolicies subpolicies
  | .opaqueHash a => 6 :: a.val
  | .unlockConditions uc => 7 :: uc.encode
  | .slhdsa pk => 8 :: pk.val

def encodePolicies : List SpendPolicy → Bytes
  | [] => []
  | p :: ps => encodePolicy p ++ encodePolicies ps
end

def encode (p : SpendPolicy) : Bytes := 1 :: p.encodePolicy

mutual
def address (c : Crypto) : SpendPolicy → Address
  | .unlockConditions uc => uc.root c
  | .threshold n subpolicies =>
    c.sum256 (Crypto.distinguisher "address" ++ encode (.threshold n (opaqueAll c subpolicies)))
  | .above height => c.sum256 (Crypto.distinguisher "address" ++ encode (.above height))
  | .after t => c.sum256 (Crypto.distinguisher "address" ++ encode (.after t))
  | .publicKey pk => c.sum256 (Crypto.distinguisher "address" ++ encode (.publicKey pk))
  | .hash h => c.sum256 (Crypto.distinguisher "address" ++ encode (.hash h))
  | .opaqueHash a => c.sum256 (Crypto.distinguisher "address" ++ encode (.opaqueHash a))
  | .slhdsa pk => c.sum256 (Crypto.distinguisher "address" ++ encode (.slhdsa pk))

def opaqueAll (c : Crypto) : List SpendPolicy → List SpendPolicy
  | [] => []
  | .opaqueHash a :: ps => .opaqueHash a :: opaqueAll c ps
  | p :: ps => .opaqueHash (address c p) :: opaqueAll c ps
end

def isOpaque : SpendPolicy → Bool
  | .opaqueHash _ => true
  | _ => false

end SpendPolicy

structure SatisfiedPolicy where
  policy : SpendPolicy
  signatures : List Signature
  preimages : List (FixedBytes 32)

def SatisfiedPolicy.encode (sp : SatisfiedPolicy) : Bytes :=
  sp.policy.encode ++ encodeList Subtype.val sp.signatures ++ encodeList Subtype.val sp.preimages

def qdaySignatureSize : ℕ := 7856
def qdaySignatureChunks : ℕ := 246

/-- `verifyQdayReserve`: the chunks hold one signature, padded with zeros. -/
def verifyQdayReserve (c : Crypto) (pk : FixedBytes 32) (h : Hash256) (chunks : List (FixedBytes 32)) : Bool :=
  let buf := chunks.flatMap Subtype.val
  decide (chunks.length = qdaySignatureChunks) && (buf.drop qdaySignatureSize).all (· = 0) &&
    c.verifySLHDSA pk h.val (buf.take qdaySignatureSize) (ascii "QDAY/reserve/v1")

/-- What is left of the witness, and how many sub-policies were met so far. -/
structure Witness where
  sigs : List Signature
  preimages : List (FixedBytes 32)
  totalPolicies : ℕ

/-- What a policy is verified against. -/
structure SpendContext where
  height : UInt64
  medianTimestamp : Time
  sigHash : Hash256

namespace SpendPolicy
variable (c : Crypto) (ctx : SpendContext)

def verifyAbove (height : UInt64) (w : Witness) : Outcome Witness :=
  let cur := ctx.height
  if ctx.height ≥ height then .ok w else fail s!"height ({cur}) not above {height}"

/-- The key loop of an unlock-conditions policy; `required` counts down. -/
def verifyKeys : List UnlockKey → UInt64 → Witness → Outcome (UInt64 × Witness)
  | [], required, w => .ok (required, w)
  | pk :: pks, required, w =>
    if required = 0 ∨ required.toNat > (pk :: pks).length ∨ required.toNat > w.sigs.length then .ok (required, w)
    else if pk.algorithm = specifierEntropy then fail "policy uses an entropy public key"
    else if pk.algorithm = specifierEd25519 then
      let epk : PublicKey := ⟨(pk.key ++ List.replicate 32 0).take 32, by simp⟩
      if c.verifyEd25519 epk ctx.sigHash.val (w.sigs.headD default) then
        verifyKeys pks (required - 1) { w with sigs := w.sigs.tail }
      else verifyKeys pks required w
    else verifyKeys pks (required - 1) { w with sigs := w.sigs.tail }

mutual
def verifyPolicy : SpendPolicy → Witness → Outcome Witness
  | .above height, w => verifyAbove ctx height w
  | .after t, w =>
    if ctx.medianTimestamp.after t then .ok w else fail "median timestamp not after policy timestamp"
  | .publicKey pk, w =>
    match w.sigs with
    | sig :: rest =>
      if c.verifyEd25519 pk ctx.sigHash.val sig then .ok { w with sigs := rest }
      else fail "invalid signature"
    | [] => fail "invalid signature"
  | .slhdsa pk, w =>
    if w.preimages.length < qdaySignatureChunks ∨
        ¬ verifyQdayReserve c pk ctx.sigHash (w.preimages.take qdaySignatureChunks) then
      fail "invalid SLH-DSA reserve signature"
    else .ok { w with preimages := w.preimages.drop qdaySignatureChunks }
  | .hash h, w =>
    match w.preimages with
    | preimage :: rest =>
      if h = c.sha256 preimage.val then .ok { w with preimages := rest } else fail "invalid preimage"
    | [] => fail "invalid preimage"
  | .threshold n subpolicies, w =>
    let w := { w with totalPolicies := w.totalPolicies + subpolicies.length }
    if w.totalPolicies > 1024 ∨ subpolicies.length > 255 then fail "policy is too complex"
    else do
      let (satisfied, w) ← verifySubpolicies n subpolicies 0 w
      if satisfied = n then return w
      else fail s!"threshold not reached: satisfied {satisfied}, required {n}"
  | .opaqueHash _, _ => fail "opaque policy"
  | .unlockConditions uc, w => do
      let w ← verifyAbove ctx uc.timelock w
      let (required, w) ← verifyKeys c ctx uc.publicKeys uc.signaturesRequired w
      if required = 0 then return w
      else fail s!"threshold not reached: remaining signatures {required}"

def verifySubpolicies (n : UInt8) : List SpendPolicy → UInt8 → Witness → Outcome (UInt8 × Witness)
  | [], satisfied, w => .ok (satisfied, w)
  | .unlockConditions _ :: _, _, _ => fail "unlock conditions cannot be sub-policies"
  | .opaqueHash _ :: ps, satisfied, w => verifySubpolicies n ps satisfied w
  | p :: ps, satisfied, w =>
    if satisfied = n then fail "threshold exceeded"
    else do
      let w ← verifyPolicy p w
      verifySubpolicies n ps (satisfied + 1) w
end

def verify (p : SpendPolicy) (sigs : List Signature) (preimages : List (FixedBytes 32)) : Outcome Unit := do
  let w ← verifyPolicy c ctx p ⟨sigs, preimages, 0⟩
  rejectIf (w.sigs.length > 0) "superfluous signature(s)"
  rejectIf (w.preimages.length > 0) "superfluous preimage(s)"

end SpendPolicy

def isQdayNativePolicy : SpendPolicy → Bool
  | .threshold 2 [.publicKey _, .slhdsa _] => true
  | _ => false

/-- The revealed branch of an atomic swap: both keys and a hash or height lock. -/
def isQdaySwapBranch : SpendPolicy → Bool
  | .threshold 3 [.publicKey _, .slhdsa _, .hash h] => decide (h ≠ default)
  | .threshold 3 [.publicKey _, .slhdsa _, .above height] => decide (height ≠ 0)
  | _ => false

/-- `IsQdaySwapSpendPolicy`: exactly one of the two branches is opaque. -/
def isQdaySwapSpendPolicy : SpendPolicy → Bool
  | .threshold 1 [p, q] =>
    match p.isOpaque, q.isOpaque with
    | true, false => isQdaySwapBranch q
    | false, true => isQdaySwapBranch p
    | _, _ => false
  | _ => false

/-- `QdayKeys`: the Ed25519 and the SLH-DSA key of an address. -/
structure QdayKeys where
  classical : PublicKey
  reserve : FixedBytes 32
  deriving DecidableEq

namespace QdayKeys

def policy (k : QdayKeys) : SpendPolicy := .threshold 2 [.publicKey k.classical, .slhdsa k.reserve]

def bytes (k : QdayKeys) : Bytes := k.classical.val ++ k.reserve.val

def validate (k : QdayKeys) : Outcome Unit :=
  rejectIf (k.classical = default ∨ k.reserve = default) "zero QDAY public key"

end QdayKeys

end QdayNode
