import QdayNode.Consensus.State

/-!
# QDAY rules

The envelope carried in a transaction's arbitrary data, the decay of values after PQ
Day, the DEFEND work and the rules of `consensus/qday.go` that are not shared with
other networks.
-/
namespace QdayNode
open ByteString Outcome

def qdayTransfer : UInt8 := 1
def qdayCoinbase : UInt8 := 2
def qdayCanaryProof : UInt8 := 3
def qdayMiningWork : UInt8 := 4

structure QdayEnvelope where
  kind : UInt8
  nonce : UInt64
  keys : List QdayKeys
  witness : FixedBytes 32
  deriving DecidableEq

def qdayMagic : Bytes := ascii "QDAY" ++ [2]

def QdayEnvelope.encode (e : QdayEnvelope) : Bytes :=
  qdayMagic ++ e.kind :: (encodeUint64 e.nonce ++ littleEndian 2 e.keys.length ++ e.keys.flatMap QdayKeys.bytes ++
    if e.kind = qdayCanaryProof then e.witness.val else [])

/-- The keys from index `i` on, each checked as it is read. -/
def parseQdayKeys (b : Bytes) : ℕ → ℕ → Outcome (List QdayKeys)
  | 0, _ => .ok []
  | n+1, i => do
      let key : QdayKeys := ⟨slice 32 (16 + 64*i) b, slice 32 (48 + 64*i) b⟩
      key.validate
      let keys ← parseQdayKeys b n (i+1)
      return key :: keys

def parseQdayEnvelope (b : Bytes) : Outcome QdayEnvelope := do
  rejectIf (b.length < 16 ∨ b.take 5 ≠ qdayMagic) "missing QDAY envelope"
  let kind := b.getD 5 0
  let nonce := UInt64.ofNat (ofLittleEndian ((b.drop 6).take 8))
  let n := ofLittleEndian ((b.drop 14).take 2)
  let w := if kind = qdayCanaryProof then 32 else 0
  rejectIf (kind < qdayTransfer ∨ kind > qdayMiningWork ∨ n > 128 ∨ b.length ≠ 16 + 64*n + w)
    "invalid QDAY envelope"
  let keys ← parseQdayKeys b n 0
  return ⟨kind, nonce, keys, if w ≠ 0 then slice 32 (b.length - 32) b else default⟩

def V2Transaction.isCanaryProof (txn : V2Transaction) : Bool :=
  match parseQdayEnvelope txn.arbitraryData with
  | .ok e => decide (e.kind = qdayCanaryProof)
  | .error _ => false

namespace State

def qdayV1Active (s : State) (height : UInt64) : Bool :=
  s.network.qday.v1Height ≠ 0 && height ≥ s.network.qday.v1Height

def qdayActive (s : State) (height : UInt64) : Bool := s.qdayHeight ≠ 0 && height ≥ s.qdayHeight

def qdayValue (s : State) (value : Currency) (maturityHeight height : UInt64) : Outcome Currency :=
  let p := s.network.qday
  let start := max s.qdayHeight maturityHeight
  if ¬ s.qdayActive height then .ok value
  else if height ≤ start ∨ height - start ≤ p.shieldBlocks then .ok value
  else do
    crashIf (p.decayStep = 0) "integer divide by zero"
    let age := (height - start - p.shieldBlocks) / p.decayStep * p.decayStep
    if age ≥ p.decayBlocks then return Currency.zeroCurrency
    else do
      let remaining := p.decayBlocks - age
      let q ← value.div64 p.decayBlocks
      let whole ← q.mul64 p.decayBlocks
      let r ← value.sub whole
      let decayed ← q.mul64 remaining
      let part ← r.mul64 remaining
      let part ← part.div64 p.decayBlocks
      decayed.add part

def qdayWorkIntent (c : Crypto) (s : State) (txn : V2Transaction) : Hash256 :=
  let arb := txn.arbitraryData
  let cleared := if arb.length ≥ 14 then arb.take 6 ++ List.replicate 8 0 ++ arb.drop 14 else arb
  c.sum256 (Crypto.distinguisher "qday/defend/intent/v1" ++ s.network.qday.domain.val ++
    (V2Transaction.id c { txn with arbitraryData := cleared }).val)

end State

def qdayWorkValid (c : Crypto) (intent : Hash256) (nonce : UInt64) (difficulty : UInt8) : Bool :=
  let h := c.sum256 (intent.val ++ encodeUint64 nonce)
  (List.range difficulty.toNat).all fun i => !((h.val.getD (i / 8) 0).toNat.testBit (7 - i % 8))

def qdayUnsupported (txn : V2Transaction) : Bool :=
  txn.siafundInputs.length + txn.siafundOutputs.length + txn.fileContracts.length + txn.fileContractRevisions.length +
      txn.fileContractResolutions.length + txn.attestations.length ≠ 0 || txn.newFoundationAddress.isSome

def isCoinbaseMarker (c : Crypto) (minerAddr : Address) (txn : V2Transaction) : Bool :=
  match parseQdayEnvelope txn.arbitraryData with
  | .error _ => false
  | .ok e =>
    decide (e.kind = qdayCoinbase) && decide (e.keys.length = 1) &&
      e.keys.head?.any (fun k => k.policy.address c = minerAddr) &&
      decide (txn.siacoinInputs.length + txn.siacoinOutputs.length = 0) && txn.minerFee.isZero &&
      !qdayUnsupported txn

def isMiningWorkMarker (txn : V2Transaction) : Bool :=
  match parseQdayEnvelope txn.arbitraryData with
  | .error _ => false
  | .ok e =>
    decide (e.kind = qdayMiningWork) && e.keys.isEmpty && decide (e.witness = default) &&
      decide (txn.siacoinInputs.length + txn.siacoinOutputs.length = 0) && txn.minerFee.isZero &&
      !qdayUnsupported txn

def validateQdayBlockMarkers (c : Crypto) (s : State) (b : Block) : Outcome Unit :=
  match b.v2, b.minerPayouts with
  | some v2, [payout] =>
    match v2.transactions with
    | [] => fail "missing QDAY coinbase marker"
    | txn :: rest => do
        rejectIf (b.transactions.length ≠ 0) "missing QDAY coinbase marker"
        rejectIf (isCoinbaseMarker c payout.address txn = false) "invalid QDAY coinbase marker"
        runIf (s.qdayV1Active s.childHeight = true)
          (match rest.getLast? with
          | none => fail "missing QDAY mining work marker"
          | some work => rejectIf (isMiningWorkMarker work = false) "invalid QDAY mining work marker")
  | _, _ => fail "missing QDAY coinbase marker"

end QdayNode
