import QdayNode.Consensus.Mining
import QdayNode.Consensus.EncodingSize

/-!
# Mining templates

`buildMiningTemplate` of `node/qday/mining.go` turns a candidate into a job for Stratum
miners.  They cannot encode a QDAY block: they fill eight bytes into the last transaction,
hash it, and fold the given branch into the hash from the left.  Hexadecimal strings are
modelled as the bytes they stand for; the random long-poll identifier and the checks of
the service around the candidate are left out.
-/
namespace QdayNode
open ByteString Outcome
open MerkleTree (Accumulator)

variable {ms : MidState}

structure MiningTemplateTransaction where
  data : Bytes
  txid : TransactionID

structure MiningStratumTemplate where
  block : Bytes
  coinbase1 : Bytes
  coinbase2 : Bytes
  extraNonce1Size : UInt8
  extraNonce2Size : UInt8
  merkleBranch : List Hash256

structure MiningTemplateResponse where
  header : Bytes
  commitment : Hash256
  transactions : List MiningTemplateTransaction
  minerPayout : Bytes
  previousBlockHash : BlockID
  target : BlockID
  height : UInt32
  timestamp : Int64
  version : UInt32
  bits : UInt32
  workNonce : UInt64
  blockRewardAtomic : Currency
  feesAtomic : Currency
  payoutAtomic : Currency
  mempoolTransactions : ℕ
  stratum : MiningStratumTemplate

def byteLength : ℕ → ℕ → ℕ
  | 0, _ => 0
  | fuel+1, n => if n = 0 then 0 else byteLength fuel (n / 256) + 1

def compactMiningDifficulty (w : Work) : UInt32 :=
  let n := w.toNat
  let exponent := byteLength 32 n
  let mantissa := if exponent ≤ 3 then n * 256^(3 - exponent) else n / 256^(exponent - 3)
  if n = 0 then 0
  else if mantissa.testBit 23 then UInt32.ofNat ((exponent + 1) * 2^24 + mantissa / 256)
  else UInt32.ofNat (exponent * 2^24 + mantissa)

section Template

variable (c : Crypto) (cs : State) (miner : QdayKeys)

def workMarker (txn : V2Transaction) : Outcome QdayEnvelope :=
  match parseQdayEnvelope txn.arbitraryData with
  | .ok e =>
    if e.kind = qdayCoinbase ∨ (cs.qdayV1Active (cs.index.height + 1) = true ∧ e.kind = qdayMiningWork) then .ok e
    else fail "candidate builder returned an invalid QDAY mining marker"
  | .error _ => fail "candidate builder returned an invalid QDAY mining marker"

/-- The last transaction, cut around its nonce once the V1 rules apply. -/
def coinbaseParts (workBytes : Bytes) : Outcome (Bytes × Bytes × UInt8) :=
  if cs.qdayV1Active (cs.index.height + 1) then do
    rejectIf (workBytes.length ≠ 33) "candidate builder returned a non-compact QDAY mining marker"
    return (workBytes.take 23, workBytes.drop 31, 4)
  else return (workBytes, [], 0)

def templateBranch (txns : List V2Transaction) : List Hash256 :=
  (((cs.merkleLeafPreimage c (miner.policy.address c) :: txns.dropLast.map V2Transaction.merkleLeafPreimage).map
    c.sum256).foldl (Accumulator.addLeaf c.sumPair) (Accumulator.empty default)).branch

def miningTemplate (block : Block) : Outcome MiningTemplateResponse :=
  match block.v2, block.minerPayouts with
  | some v2, [payout] =>
    match v2.transactions with
    | [] => fail "candidate builder returned an incomplete QDAY block"
    | first :: rest => do
        let last := (first :: rest).getLastD first
        let v1 := cs.qdayV1Active (cs.index.height + 1)
        let marker ← workMarker cs (if v1 then last else first)
        let header := (block.header c).preimage
        rejectIf (header.length ≠ 80) "encoded mining header has the wrong length, expected 80"
        let encodedBlock ← block.encodeV2 c
        let (coinbase1, coinbase2, extraNonceSize) ← coinbaseParts cs last.encode
        let target ← cs.powTarget
        let fees ← payout.value.sub cs.blockReward
        return {
          header := header
          commitment := (block.header c).commitment
          transactions := (first :: rest).map fun txn => ⟨txn.encode, txn.id c⟩
          minerPayout := payout.encodeV2
          previousBlockHash := block.parentID
          target := target
          height := (cs.index.height + 1).toUInt32
          timestamp := block.timestamp.unix
          version := 2
          bits := compactMiningDifficulty cs.difficulty
          workNonce := marker.nonce
          blockRewardAtomic := cs.blockReward
          feesAtomic := fees
          payoutAtomic := payout.value
          mempoolTransactions := (first :: rest).length - (if v1 then 2 else 1)
          stratum := {
            block := encodedBlock
            coinbase1 := coinbase1
            coinbase2 := coinbase2
            extraNonce1Size := extraNonceSize
            extraNonce2Size := extraNonceSize
            merkleBranch := templateBranch c cs miner (first :: rest) } }
  | _, _ => fail "candidate builder returned an incomplete QDAY block"

def buildMiningTemplate (pool : List V2Transaction) (timestamp : Time) (workNonce : UInt64) :
    Outcome MiningTemplateResponse := do
  let block ← candidateWithNonce c cs miner pool timestamp workNonce
  miningTemplate c cs miner block

end Template

section Cut

theorem isZero_zeroCurrency : Currency.zeroCurrency.isZero = true := by decide

theorem encode_envelope (e : QdayEnvelope) :
    V2Transaction.encode { arbitraryData := e.encode } = 2 :: (encodeUint64 256 ++ encodeBytes e.encode) := by
  have hne : e.encode.isEmpty = false := by
    rw [List.isEmpty_eq_false_iff_exists_mem,QdayEnvelope.encode_eq]
    exact ⟨_,List.mem_append_left _ (List.getElem_mem (by rw [QdayEnvelope.length_header]; decide : 0 < e.header.length))⟩
  simp only [V2Transaction.encode,V2Transaction.presence,hne,List.isEmpty_nil,Bool.not_true,Bool.not_false,
    Option.isSome_none,isZero_zeroCurrency,V2Transaction.encodeField,Bool.false_eq_true,if_false,if_true,
    List.nil_append,List.append_nil]
  rfl

def workHead : Bytes := 2 :: (encodeUint64 256 ++ (encodeUint64 16 ++ (qdayMagic ++ [qdayMiningWork])))

theorem length_workHead : workHead.length = 23 := by
  simp only [workHead,List.length_cons,List.length_append,length_encodeUint64,QdayEnvelope.length_qdayMagic,
    List.length_nil]

theorem encode_miningWorkMarker (n : UInt64) :
    (miningWorkMarker n).encode = workHead ++ (encodeUint64 n ++ littleEndian 2 0) := by
  have henc : (QdayEnvelope.mk qdayMiningWork n [] default).encode =
      qdayMagic ++ (qdayMiningWork :: (encodeUint64 n ++ littleEndian 2 0)) := by
    rw [QdayEnvelope.encode_eq]
    exact List.append_nil _
  have hlen : (QdayEnvelope.mk qdayMiningWork n [] default).encode.length = 16 := by
    rw [QdayEnvelope.length_encode]
    rfl
  rw [miningWorkMarker,encode_envelope,encodeBytes,hlen,henc,workHead]
  simp only [List.cons_append,List.append_assoc,List.nil_append]
  rfl

theorem exists_nonce {b : Bytes} (hb : b.length = 8) : ∃ n : UInt64, encodeUint64 n = b := by
  refine ⟨UInt64.ofNat (ofLittleEndian b),?_⟩
  have hlt : ofLittleEndian b < 2^64 := by
    have := ofLittleEndian_lt b
    rw [hb] at this
    exact this
  have hback := littleEndian_ofLittleEndian b
  rw [hb] at hback
  rw [encodeUint64,UInt64.toNat_ofNat_of_lt' hlt,hback]

def V2Transaction.replaceNonce (b : Bytes) (txn : V2Transaction) : V2Transaction :=
  { txn with arbitraryData := txn.arbitraryData.take 6 ++ (b ++ txn.arbitraryData.drop 14) }

theorem replaceNonce_miningWorkMarker (n n' : UInt64) :
    (miningWorkMarker n).replaceNonce (encodeUint64 n') = miningWorkMarker n' := by
  have hdata : ∀ n, (miningWorkMarker n).arbitraryData =
      (qdayMagic ++ [qdayMiningWork]) ++ (encodeUint64 n ++ littleEndian 2 0) := by
    intro n
    rw [miningWorkMarker,QdayEnvelope.encode_eq]
    exact (List.append_nil _).trans (List.append_cons _ _ _)
  have hhead : (qdayMagic ++ [qdayMiningWork]).length = 6 := by decide
  have hdrop : ((qdayMagic ++ [qdayMiningWork]) ++ (encodeUint64 n ++ littleEndian 2 0)).drop 14 = littleEndian 2 0 := by
    rw [← List.append_assoc]
    exact List.drop_left' (by rw [List.length_append,hhead,length_encodeUint64])
  have hreplaced : (miningWorkMarker n).arbitraryData.take 6 ++ (encodeUint64 n' ++ (miningWorkMarker n).arbitraryData.drop 14) =
      (miningWorkMarker n').arbitraryData := by
    rw [hdata n,List.take_left' hhead,hdrop,hdata n']
  rw [V2Transaction.replaceNonce,hreplaced]
  rfl

def Block.replaceWorkNonce (nonce : Bytes) (b : Block) : Block :=
  { b with v2 := b.v2.map fun v2 => { v2 with
      transactions := v2.transactions.dropLast ++ (v2.transactions.getLast?.map (V2Transaction.replaceNonce nonce)).toList } }

end Cut

section Fold

variable {c : Crypto} {cs : State} {miner : QdayKeys} {pool : List V2Transaction} {timestamp : Time}
  {workNonce : UInt64} {b : Block} {t : MiningTemplateResponse}

theorem weight_of_valid {txn : V2Transaction} (h : validateV2Transaction c ms txn = .ok ()) :
    1 ≤ (v2TransactionWeight txn).toNat := by
  simp only [validateV2Transaction,bind_unit_eq_ok,rejectIf_eq_ok] at h
  obtain ⟨-,-,-,hweight,-⟩ := h
  refine Nat.one_le_iff_ne_zero.mpr fun hzero => hweight ?_
  exact UInt64.toNat_inj.mp hzero

theorem length_le_weight {txns : List V2Transaction}
    (h : validateTransfers c txns (newMidState cs) = .ok ms) :
    txns.length ≤ (txns.map fun txn => (v2TransactionWeight txn).toNat).sum := by
  induction txns using List.reverseRecOn generalizing ms with
  | nil => exact le_rfl
  | append_singleton txns txn ih =>
    obtain ⟨ms₁,h,hvalid,-⟩ := validateTransfers_snoc.mp h
    have hone := weight_of_valid hvalid
    have hrest := ih h
    rw [List.length_append,List.length_singleton,List.map_append,List.sum_append,List.map_singleton,
      List.sum_singleton]
    omega

theorem Candidate.Collected.length_le {marker : V2Transaction} {chosen : List V2Transaction} {cand : Candidate}
    (h : Candidate.Collected c cs marker chosen cand) : chosen.length ≤ 2000000 := by
  have hlen := length_le_weight h.transfers
  have hweight := h.weight
  have hle := UInt64.le_iff_toNat_le.mp h.weight_le
  have hmax : State.maxBlockWeight.toNat = 2000000 := rfl
  rw [List.map_cons,List.sum_cons] at hweight
  omega

/-- What the template gives out once the V1 rules apply. -/
theorem miningTemplate_stratum {first : V2Transaction} {rest : List V2Transaction} {v2 : V2BlockData}
    {last : V2Transaction} (hv1 : cs.qdayV1Active (cs.index.height + 1) = true) (hv2 : b.v2 = some v2)
    (htxns : v2.transactions = first :: (rest ++ [last])) (ht : miningTemplate c cs miner b = .ok t) :
    b.encodeV2 c = .ok t.stratum.block ∧ t.stratum.extraNonce1Size = 4 ∧ t.stratum.extraNonce2Size = 4 ∧
      t.stratum.coinbase1 = last.encode.take 23 ∧ t.stratum.coinbase2 = last.encode.drop 31 ∧
      t.stratum.merkleBranch = templateBranch c cs miner (first :: (rest ++ [last])) := by
  unfold miningTemplate at ht
  rw [hv2] at ht
  cases hpayouts : b.minerPayouts with
  | nil => simp [hpayouts] at ht
  | cons payout payouts =>
    cases payouts with
    | cons p ps => simp [hpayouts] at ht
    | nil =>
      simp only [hpayouts,htxns,bind_eq_ok,pure_eq_ok] at ht
      obtain ⟨marker,-,-,-,block,hblock,⟨coinbase1,coinbase2,size⟩,hparts,target,-,fees,-,rfl⟩ := ht
      have hlast : (first :: (rest ++ [last])).getLastD first = last := by
        rw [← List.cons_append,List.getLastD_concat]
      rw [hlast] at hparts
      rw [coinbaseParts,if_pos hv1] at hparts
      simp only [bind_eq_ok,pure_eq_ok,Prod.mk.injEq] at hparts
      obtain ⟨-,-,rfl,rfl,rfl⟩ := hparts
      exact ⟨hblock,rfl,rfl,rfl,rfl,rfl⟩

theorem foldl_templateBranch (c : Crypto) (cs : State) (miner : QdayKeys) (txns : List V2Transaction)
    (last last' : V2Transaction) (hlen : txns.length + 2 < 2^64) :
    (templateBranch c cs miner (txns ++ [last])).foldl (fun h left => c.sumPair left h)
        (c.sum256 last'.merkleLeafPreimage) =
      cs.commitment c (miner.policy.address c) [] (txns ++ [last']) := by
  have hleaves : (cs.commitmentLeaves c (miner.policy.address c) [] (txns ++ [last'])).map c.sum256 =
      ((cs.merkleLeafPreimage c (miner.policy.address c) :: txns.map V2Transaction.merkleLeafPreimage).map c.sum256) ++
        [c.sum256 last'.merkleLeafPreimage] := by
    simp [State.commitmentLeaves]
  rw [State.commitment,hleaves,MerkleTree.merkleRoot_concat,templateBranch,List.dropLast_concat]
  simpa using hlen

/-- Stratum miners commit to the block they were given: for every choice of the extra nonces the fold
of the branch is the commitment of the block with these bytes in its work marker, and the markers of
that block are valid. -/
theorem template_commits (hkeys : miner.classical ≠ default ∧ miner.reserve ≠ default)
    (hv1 : cs.qdayV1Active (cs.index.height + 1) = true)
    (ht : buildMiningTemplate c cs miner pool timestamp workNonce = .ok t) :
    ∃ b, candidateWithNonce c cs miner pool timestamp workNonce = .ok b ∧ b.encodeV2 c = .ok t.stratum.block ∧
      t.stratum.extraNonce1Size = 4 ∧ t.stratum.extraNonce2Size = 4 ∧
      ∀ extraNonce1 extraNonce2 : FixedBytes 4,
        t.stratum.merkleBranch.foldl (fun h left => c.sumPair left h)
            (c.sum256 (0 :: (t.stratum.coinbase1 ++ (extraNonce1.val ++ (extraNonce2.val ++ t.stratum.coinbase2))))) =
          cs.commitment c (miner.policy.address c) (b.replaceWorkNonce (extraNonce1.val ++ extraNonce2.val)).transactions
            (b.replaceWorkNonce (extraNonce1.val ++ extraNonce2.val)).v2Transactions ∧
        validateQdayBlockMarkers c cs (b.replaceWorkNonce (extraNonce1.val ++ extraNonce2.val)) = .ok () := by
  have hvalid : miner.validate = .ok () := rejectIf_of_not (not_or.mpr hkeys) _
  rw [buildMiningTemplate,bind_eq_ok] at ht
  obtain ⟨b,hb,ht⟩ := ht
  obtain ⟨chosen,cand,h,rfl⟩ := candidate_built hb
  have htxns : candidateTransactions cs miner workNonce chosen =
      coinbaseMarker miner workNonce :: (chosen ++ [miningWorkMarker workNonce]) := by
    rw [candidateTransactions,State.childHeight,if_pos hv1]
  obtain ⟨hblock,hsize1,hsize2,hcoinbase1,hcoinbase2,hbranch⟩ := miningTemplate_stratum hv1 rfl htxns ht
  refine ⟨_,hb,hblock,hsize1,hsize2,fun extraNonce1 extraNonce2 => ?_⟩
  obtain ⟨n,hn⟩ : ∃ n : UInt64, encodeUint64 n = extraNonce1.val ++ extraNonce2.val :=
    exists_nonce (by rw [List.length_append,extraNonce1.property,extraNonce2.property])
  have hreplaced : (candidateTransactions cs miner workNonce chosen).dropLast ++
      ((candidateTransactions cs miner workNonce chosen).getLast?.map
        (V2Transaction.replaceNonce (extraNonce1.val ++ extraNonce2.val))).toList =
      (coinbaseMarker miner workNonce :: chosen) ++ [miningWorkMarker n] := by
    rw [htxns,← List.cons_append,List.dropLast_concat,List.getLast?_concat,← hn]
    simp [replaceNonce_miningWorkMarker]
  set b := candidateBlock c cs miner timestamp workNonce chosen cand.value
  have hv2 : (b.replaceWorkNonce (extraNonce1.val ++ extraNonce2.val)).v2 = some ⟨cs.index.height + 1,
      cs.commitment c (miner.policy.address c) [] (candidateTransactions cs miner workNonce chosen),
      coinbaseMarker miner workNonce :: (chosen ++ [miningWorkMarker n])⟩ := by
    rw [← List.cons_append,← hreplaced]
    rfl
  have hwork : t.stratum.coinbase1 ++ (extraNonce1.val ++ (extraNonce2.val ++ t.stratum.coinbase2)) =
      (miningWorkMarker n).encode := by
    have hdrop : (miningWorkMarker workNonce).encode.drop 31 = littleEndian 2 0 := by
      rw [encode_miningWorkMarker,← List.append_assoc]
      exact List.drop_left' (by rw [List.length_append,length_workHead,length_encodeUint64])
    rw [hcoinbase1,hcoinbase2,hdrop,encode_miningWorkMarker,encode_miningWorkMarker,List.take_left' length_workHead,
      hn,List.append_assoc]
  refine ⟨?_,validateQdayBlockMarkers_of_markers hvalid rfl rfl hv2 fun _ => ⟨n,List.getLast?_concat⟩⟩
  have hlen := h.length_le
  have hfold := foldl_templateBranch c cs miner (coinbaseMarker miner workNonce :: chosen)
    (miningWorkMarker workNonce) (miningWorkMarker n) (by rw [List.length_cons]; omega)
  rw [hwork,hbranch,Block.v2Transactions,hv2]
  exact hfold

def sampleTemplateState : State :=
  { sampleState ⟨fun _ => default, 0⟩ with network := { sampleNetwork with qday := { sampleNetwork.qday with v1Height := 1 } } }

theorem template_commits_sample : ∃ (t : MiningTemplateResponse) (b : Block),
    buildMiningTemplate sampleCrypto sampleTemplateState sampleKeys [] sampleTime 7 = .ok t ∧ b.encodeV2 sampleCrypto = .ok t.stratum.block ∧ t.stratum.merkleBranch.length = 1 ∧
      t.stratum.merkleBranch.foldl (fun h left => sampleCrypto.sumPair left h) (sampleCrypto.sum256 (0 ::
          (t.stratum.coinbase1 ++ ([1, 2, 3, 4] ++ ([5, 6, 7, 8] ++ t.stratum.coinbase2))))) =
        sampleTemplateState.commitment sampleCrypto (sampleKeys.policy.address sampleCrypto)
          (b.replaceWorkNonce [1, 2, 3, 4, 5, 6, 7, 8]).transactions
          (b.replaceWorkNonce [1, 2, 3, 4, 5, 6, 7, 8]).v2Transactions := by
  obtain ⟨t,ht,hcheck⟩ := exists_of_holds
    (x := buildMiningTemplate sampleCrypto sampleTemplateState sampleKeys [] sampleTime 7)
    (p := fun t => decide (t.stratum.merkleBranch.length = 1)) (by decide +kernel)
  obtain ⟨b,-,hblock,-,-,hfold⟩ := template_commits (by decide +kernel) (by decide +kernel) ht
  exact ⟨t,b,ht,hblock,of_decide_eq_true hcheck,(hfold ⟨[1,2,3,4],rfl⟩ ⟨[5,6,7,8],rfl⟩).1⟩

end Fold

end QdayNode
