import QdayNode.Consensus.EncodingSize
import QdayNode.Consensus.Reencoding
import QdayNode.Consensus.BlockDecoding
import QdayNode.Consensus.Verdict

/-!
# Block outlines

`gateway/outline.go` relays a block without the transactions the receiver should already
have, without its commitment and without the value of its payout.  The receiver computes
the commitment from its own state and the hashes of the transactions, and the value from
the reward and the fees.
-/
namespace QdayNode
open ByteString Decoder
open Outcome hiding fail

variable {remove : List Hash256} {txn : V2Transaction}

section Definitions

variable (c : Crypto)

def V2BlockOutline.commitment (ob : V2BlockOutline) (cs : State) : Hash256 :=
  MerkleTree.merkleRoot c.sumPair default
    (c.sum256 (cs.merkleLeafPreimage c ob.minerAddress) :: ob.transactions.map OutlineTransaction.hash)

def V2BlockOutline.id (ob : V2BlockOutline) (cs : State) : BlockID :=
  BlockHeader.id c ⟨ob.parentID, ob.nonce, ob.timestamp, ob.commitment c cs⟩

def Transaction.totalFees (txn : Transaction) : Currency :=
  match txn.minerFees.foldlM (fun sum fee =>
      let (sum, overflow) := Currency.addWithOverflow sum fee
      if overflow then none else some sum) Currency.zeroCurrency with
  | some sum => sum
  | none => Currency.zeroCurrency

namespace OutlineTransaction

def isMissing (ot : OutlineTransaction) : Bool := ot.transaction.isNone && ot.v2Transaction.isNone

/-- The data of a missing transaction is looked up by its hash.  Among transactions with one
hash the map holds the last. -/
def fill (txns : List Transaction) (v2txns : List V2Transaction) (ot : OutlineTransaction) : OutlineTransaction :=
  if ot.isMissing then
    { ot with
      transaction := txns.reverse.find? fun txn => c.sum256 txn.merkleLeafPreimage = ot.hash
      v2Transaction := v2txns.reverse.find? fun txn => c.sum256 txn.merkleLeafPreimage = ot.hash }
  else ot

def addFees (value : Currency) (ot : OutlineTransaction) : Outcome Currency :=
  match ot.transaction, ot.v2Transaction with
  | some txn, _ => value.add txn.totalFees
  | none, some txn => value.add txn.minerFee
  | none, none => .ok value

end OutlineTransaction

def V2BlockOutline.missing (ob : V2BlockOutline) : List Hash256 :=
  (ob.transactions.filter OutlineTransaction.isMissing).map OutlineTransaction.hash

/-- `V2BlockOutline.Complete`: the block, the hashes that are still missing and the outline, which
keeps what was filled in. -/
def V2BlockOutline.complete (ob : V2BlockOutline) (cs : State) (txns : List Transaction) (v2txns : List V2Transaction) :
    Outcome (Block × List Hash256 × V2BlockOutline) := do
  let filled : V2BlockOutline := { ob with transactions := ob.transactions.map (OutlineTransaction.fill c txns v2txns) }
  let value ← filled.transactions.foldlM OutlineTransaction.addFees cs.blockReward
  let b : Block := {
    parentID := ob.parentID
    nonce := ob.nonce
    timestamp := ob.timestamp
    minerPayouts := [⟨value, ob.minerAddress⟩]
    transactions := filled.transactions.filterMap OutlineTransaction.transaction
    v2 := some ⟨ob.height, ob.commitment c cs, filled.transactions.filterMap OutlineTransaction.carriedV2⟩ }
  return (b, filled.missing, filled)

def readKind : Decoder UInt8 := do
  let kind ← readUint8
  if kind > 2 then fail "invalid outline transaction type" else return kind

/-- Deals the decoded transactions and hashes out in the order of their tags. -/
def dealOut : List UInt8 → List Transaction → List V2Transaction → List Hash256 → Outcome (List OutlineTransaction)
  | [], _, _, _ => .ok []
  | kind :: kinds, txns, v2txns, hashes =>
    match kind.toNat, txns, v2txns, hashes with
    | 0, txn :: txns, v2txns, hashes => do
        let rest ← dealOut kinds txns v2txns hashes
        return ⟨c.sum256 txn.merkleLeafPreimage, some txn, none⟩ :: rest
    | 1, txns, txn :: v2txns, hashes => do
        let rest ← dealOut kinds txns v2txns hashes
        return ⟨c.sum256 txn.merkleLeafPreimage, none, some txn⟩ :: rest
    | 2, txns, v2txns, hash :: hashes => do
        let rest ← dealOut kinds txns v2txns hashes
        return ⟨hash, none, none⟩ :: rest
    | _, _, _, _ => crash "index out of range"

def V2BlockOutline.decode : Decoder V2BlockOutline := do
  let height ← readUint64
  let parentID ← readFixed 32
  let nonce ← readUint64
  let timestamp ← Time.decode
  let minerAddress ← readFixed 32
  let txns ← readList Transaction.decode
  let v2txns ← decodeMultiproof c
  let hashes ← readList (readFixed 32)
  let kinds ← readCount readKind (txns.length + v2txns.length + hashes.length)
  if kinds.count 0 ≠ txns.length ∨ kinds.count 1 ≠ v2txns.length ∨ kinds.count 2 ≠ hashes.length then
    fail "outline kinds do not match received kinds"
  else
    let transactions ← call (dealOut c kinds txns v2txns hashes)
    return ⟨height, parentID, nonce, timestamp, minerAddress, transactions⟩

end Definitions

section RoundTrip

variable {c : Crypto} {txns : List V2Transaction}

def carried (c : Crypto) (remove : List Hash256) (txns : List V2Transaction) : List V2Transaction :=
  (txns.map (outlined c remove)).filterMap OutlineTransaction.carriedV2

def omittedHashes (c : Crypto) (remove : List Hash256) (txns : List V2Transaction) : List Hash256 :=
  (txns.map (outlined c remove)).filterMap OutlineTransaction.omitted

theorem outlined_of_mem (h : c.sum256 txn.merkleLeafPreimage ∈ remove) :
    outlined c remove txn = ⟨c.sum256 txn.merkleLeafPreimage, none, none⟩ := if_pos h

theorem outlined_of_not_mem (h : c.sum256 txn.merkleLeafPreimage ∉ remove) :
    outlined c remove txn = ⟨c.sum256 txn.merkleLeafPreimage, none, some txn⟩ := if_neg h

@[simp] theorem outlined_hash (txn : V2Transaction) : (outlined c remove txn).hash = c.sum256 txn.merkleLeafPreimage := by
  rw [outlined,OutlineTransaction.strip]
  split_ifs <;> rfl

theorem carried_cons (txn : V2Transaction) (txns : List V2Transaction) :
    carried c remove (txn :: txns) =
      if c.sum256 txn.merkleLeafPreimage ∈ remove then carried c remove txns else txn :: carried c remove txns := by
  unfold carried
  split_ifs with h
  · rw [List.map_cons,List.filterMap_cons_none (by rw [outlined_of_mem h]; rfl)]
  · rw [List.map_cons,List.filterMap_cons_some (by rw [outlined_of_not_mem h]; rfl)]

theorem omittedHashes_cons (txn : V2Transaction) (txns : List V2Transaction) :
    omittedHashes c remove (txn :: txns) =
      if c.sum256 txn.merkleLeafPreimage ∈ remove then
        c.sum256 txn.merkleLeafPreimage :: omittedHashes c remove txns
      else omittedHashes c remove txns := by
  unfold omittedHashes
  split_ifs with h
  · rw [List.map_cons,List.filterMap_cons_some (by rw [outlined_of_mem h]; rfl)]
  · rw [List.map_cons,List.filterMap_cons_none (by rw [outlined_of_not_mem h]; rfl)]

def kinds (c : Crypto) (remove : List Hash256) (txns : List V2Transaction) : List UInt8 :=
  (txns.map (outlined c remove)).map OutlineTransaction.kind

theorem kinds_cons (txn : V2Transaction) (txns : List V2Transaction) :
    kinds c remove (txn :: txns) =
      (if c.sum256 txn.merkleLeafPreimage ∈ remove then 2 else 1) :: kinds c remove txns := by
  unfold kinds
  split_ifs with h
  · rw [List.map_cons,List.map_cons,outlined_of_mem h]
    rfl
  · rw [List.map_cons,List.map_cons,outlined_of_not_mem h]
    rfl

theorem dealOut_kinds (txns : List V2Transaction) :
    dealOut c (kinds c remove txns) [] (carried c remove txns) (omittedHashes c remove txns) =
      .ok (txns.map (outlined c remove)) := by
  induction txns with
  | nil => rfl
  | cons txn txns ih =>
    rw [kinds_cons,carried_cons,omittedHashes_cons,List.map_cons]
    by_cases h : c.sum256 txn.merkleLeafPreimage ∈ remove
    · rw [if_pos h,if_pos h,if_pos h,outlined_of_mem h]
      change (dealOut c _ [] _ _ >>= fun rest => _) = _
      rw [ih]
      rfl
    · rw [if_neg h,if_neg h,if_neg h,outlined_of_not_mem h]
      change (dealOut c _ [] _ _ >>= fun rest => _) = _
      rw [ih]
      rfl

theorem count_kinds (c : Crypto) (remove : List Hash256) (txns : List V2Transaction) :
    (kinds c remove txns).count 0 = 0 ∧ (kinds c remove txns).count 1 = (carried c remove txns).length ∧
      (kinds c remove txns).count 2 = (omittedHashes c remove txns).length := by
  induction txns with
  | nil => exact ⟨rfl,rfl,rfl⟩
  | cons txn txns ih =>
    obtain ⟨hzero,hone,htwo⟩ := ih
    rw [kinds_cons,carried_cons,omittedHashes_cons]
    by_cases h : c.sum256 txn.merkleLeafPreimage ∈ remove
    · rw [if_pos h,if_pos h,if_pos h,List.count_cons_of_ne (by decide),List.count_cons_of_ne (by decide),
        List.count_cons_self,List.length_cons,hzero,hone,htwo]
      exact ⟨rfl,rfl,rfl⟩
    · rw [if_neg h,if_neg h,if_neg h,List.count_cons_of_ne (by decide),List.count_cons_self,
        List.count_cons_of_ne (by decide),List.length_cons,hzero,hone,htwo]
      exact ⟨rfl,rfl,rfl⟩

theorem length_kinds (txns : List V2Transaction) :
    (kinds c remove txns).length = (carried c remove txns).length + (omittedHashes c remove txns).length := by
  induction txns with
  | nil => rfl
  | cons txn txns ih =>
    rw [kinds_cons,carried_cons,omittedHashes_cons,List.length_cons,ih]
    split_ifs
    · rw [List.length_cons]
      omega
    · rw [List.length_cons]
      omega

theorem mem_kinds {kind : UInt8} (h : kind ∈ kinds c remove txns) : kind ≤ 2 := by
  obtain ⟨ot,hot,rfl⟩ := List.mem_map.mp h
  rw [OutlineTransaction.kind]
  split_ifs <;> decide

theorem run_kinds (c : Crypto) (remove : List Hash256) (txns : List V2Transaction) (hlen : (kinds c remove txns).length < 2^64) (r : Bytes) :
    (readCount readKind (kinds c remove txns).length).run (kinds c remove txns ++ r) = .ok (kinds c remove txns, r) := by
  have hreads : Reads (fun kind : UInt8 => kind ≤ 2) (fun kind => [kind]) readKind := fun kind r hkind _ => by
    simp only [readKind,List.singleton_append,run_bind,run_readUint8,ok_bind,
      if_neg (UInt8.not_lt.mpr hkind),run_pure]
  have hflat : (kinds c remove txns).flatMap (fun kind => [kind]) = kinds c remove txns := List.flatMap_singleton' _
  have hread := hreads.readCount (l := kinds c remove txns) (fun kind hkind => mem_kinds hkind) (by rw [hflat]; exact hlen) r
  rwa [hflat] at hread

/-- The outline is read back if the multiproof of what it carries is. -/
theorem run_outline {ob : V2BlockOutline} {proved bytes : Bytes} (hob : ob.transactions = txns.map (outlined c remove))
    (hwhole : ob.timestamp.WholeSecond) (hproved : encodeMultiproof c (carried c remove txns) = .ok proved)
    (hread : ∀ r, (decodeMultiproof c).run (proved ++ r) = .ok (carried c remove txns, r))
    (hencode : ob.encode c = .ok bytes) (hfits : bytes.length < 2^64) (r : Bytes) :
    (V2BlockOutline.decode c).run (bytes ++ r) = .ok (ob, r) := by
  obtain ⟨height,parentID,nonce,timestamp,minerAddress,transactions⟩ := ob
  dsimp only at hob hwhole
  subst hob
  have hv1 : (txns.map (outlined c remove)).filterMap OutlineTransaction.transaction = [] := by
    refine List.filterMap_eq_nil_iff.mpr fun ot hot => ?_
    obtain ⟨txn,-,rfl⟩ := List.mem_map.mp hot
    exact (outlined_cases remove txn).1
  have hbytes : bytes = encodeUint64 height ++ (parentID.val ++ (encodeUint64 nonce ++ (timestamp.encode ++
      (minerAddress.val ++ (encodeList Transaction.encode [] ++ (proved ++
      (encodeList Subtype.val (omittedHashes c remove txns) ++ kinds c remove txns))))))) := by
    rw [V2BlockOutline.encode,hv1] at hencode
    have hproved' : encodeMultiproof c ((txns.map (outlined c remove)).filterMap OutlineTransaction.carriedV2) = .ok proved :=
      hproved
    rw [hproved',ok_bind] at hencode
    exact (pure_eq_ok.mp hencode).symm
  have hlen := hfits
  simp only [hbytes,List.length_append] at hlen
  obtain ⟨hzero,hone,htwo⟩ := count_kinds c remove txns
  have hhashes := run_readList_fixed (n := 32) (by decide) (l := omittedHashes c remove txns) (by omega)
    (kinds c remove txns ++ r)
  have hkinds := run_kinds c remove txns (by omega) r
  rw [length_kinds] at hkinds
  simp only [V2BlockOutline.decode,hbytes,List.append_assoc,run_bind,run_readUint64,run_readFixed,run_time hwhole,
    run_noTransactions,hread,hhashes,ok_bind,List.length_nil,Nat.zero_add,hkinds,hzero,hone,htwo,ne_eq,
    not_true_eq_false,or_self,if_false,dealOut_kinds,run_call,run_pure]

end RoundTrip

section Accepted

variable {c : Crypto} {s : State} {b : Block} {bs : V1BlockSupplement}

theorem BlockAccepted.containsLeaf (hb : BlockAccepted c s b bs) :
    ∀ l ∈ forEachElementLeaf c b.v2Transactions, s.elements.containsLeaf c l = true := by
  intro l hl
  obtain ⟨p,hp,hsource,hassigned⟩ := mem_forEachElementLeaf.mp hl
  obtain ⟨txn,htxn,hplace⟩ := List.mem_flatMap.mp (List.mem_of_getElem? hp)
  obtain ⟨ms,hadmitted⟩ := hb.mem_admitted htxn
  rw [transactionPlaces_get hadmitted.supported] at hplace
  obtain ⟨sci,hsci,hplace⟩ := List.mem_flatMap.mp hplace
  obtain rfl := List.mem_singleton.mp hplace
  rw [hsource]
  exact hb.contains htxn hsci hassigned

theorem accepted_consistent (hb : BlockAccepted c s b bs) (hdecoded : b.Decoded c)
    (hinj : Set.InjOn c.sum256 {m | m ∈ (forEachElementLeaf c b.v2Transactions).flatMap (proofMessages c)}) :
    ∃ n, Consistent c n (forEachElementLeaf c b.v2Transactions) := by
  obtain ⟨v2,hv2⟩ := Option.isSome_iff_exists.mp hb.hasV2
  have htxns : b.v2Transactions = v2.transactions := by rw [Block.v2Transactions,hv2]
  have hstream : ∃ stream rest, (decodeMultiproof c).run stream = .ok (v2.transactions, rest) :=
    hdecoded.transactions (P := fun txns => ∃ stream rest, (decodeMultiproof c).run stream = .ok (txns, rest))
      (fun stream _ rest h => ⟨stream,rest,h⟩) hv2
  obtain ⟨stream,rest,hrun⟩ := hstream
  rw [← htxns] at hrun
  refine decodeMultiproof_consistent hrun fun l hl m hm hproof => ?_
  exact hash_of_containsLeaf hinj (fun x hx => List.mem_flatMap.mpr ⟨l,hl,hx⟩)
    (fun x hx => List.mem_flatMap.mpr ⟨m,hm,hx⟩) (hb.containsLeaf l hl) (hb.containsLeaf m hm) hproof

def outlineOf (c : Crypto) (b : Block) (height : UInt64) (remove : List Hash256) : V2BlockOutline :=
  ⟨height, b.parentID, b.nonce, b.timestamp, b.minerAddress, b.v2Transactions.map (outlined c remove)⟩

theorem outlineBlock_accepted (h : validateBlock c s b bs = .ok ()) (v2txns : List V2Transaction) :
    outlineBlock c b [] v2txns =
      .ok (outlineOf c b (s.index.height + 1) (v2txns.map fun txn => c.sum256 txn.merkleLeafPreimage)) := by
  have hb := block_accepted h
  obtain ⟨payout,hpayout,-⟩ := hb.payout
  simp only [outlineBlock,v2_accepted h,hpayout,hb.transactions,List.map_nil,List.nil_append,List.map_map,outlineOf,
    Block.minerAddress,List.headD_cons]
  rfl

theorem commitment_outlineOf (c : Crypto) (b : Block) (cs : State) (height : UInt64) (remove : List Hash256) :
    (outlineOf c b height remove).commitment c cs = cs.commitment c b.minerAddress [] b.v2Transactions := by
  have hhashes : (b.v2Transactions.map (outlined c remove)).map OutlineTransaction.hash =
      (b.v2Transactions.map V2Transaction.merkleLeafPreimage).map c.sum256 := by
    rw [List.map_map,List.map_map]
    exact List.map_congr_left fun txn _ => outlined_hash txn
  rw [V2BlockOutline.commitment,outlineOf,hhashes]
  rfl

theorem id_outlineOf {cs : State} (hcommitment : (b.header c).commitment = cs.commitment c b.minerAddress [] b.v2Transactions)
    (height : UInt64) (remove : List Hash256) : (outlineOf c b height remove).id c cs = b.id c := by
  rw [V2BlockOutline.id,commitment_outlineOf,← hcommitment]
  rfl

variable {supplied : List V2Transaction}

theorem fill_outlined {T : Set V2Transaction}
    (hinj : Set.InjOn (fun txn : V2Transaction => c.sum256 txn.merkleLeafPreimage) T) (hsupplied : ∀ txn ∈ supplied, txn ∈ T)
    (htxn : txn ∈ T)
    (homitted : c.sum256 txn.merkleLeafPreimage ∈ remove → txn ∈ supplied) :
    OutlineTransaction.fill c [] supplied (outlined c remove txn) = ⟨c.sum256 txn.merkleLeafPreimage, none, some txn⟩ := by
  by_cases h : c.sum256 txn.merkleLeafPreimage ∈ remove
  · have hfind : supplied.reverse.find? (fun t => decide (c.sum256 t.merkleLeafPreimage = c.sum256 txn.merkleLeafPreimage)) =
        some txn := by
      cases hfind : supplied.reverse.find? (fun t => decide (c.sum256 t.merkleLeafPreimage = c.sum256 txn.merkleLeafPreimage)) with
      | none =>
        have hno := List.find?_eq_none.mp hfind txn (List.mem_reverse.mpr (homitted h))
        exact absurd (decide_eq_true rfl) hno
      | some t =>
        have hmem := hsupplied t (List.mem_reverse.mp (List.mem_of_find?_eq_some hfind))
        have hsame : c.sum256 t.merkleLeafPreimage = c.sum256 txn.merkleLeafPreimage := by
          simpa using List.find?_some hfind
        rw [hinj hmem htxn hsame]
    have hmissing : OutlineTransaction.isMissing ⟨c.sum256 txn.merkleLeafPreimage,none,none⟩ = true := rfl
    rw [outlined_of_mem h,OutlineTransaction.fill,if_pos hmissing]
    simp only [List.reverse_nil,List.find?_nil,hfind]
  · rw [outlined_of_not_mem h,OutlineTransaction.fill,if_neg (by simp [OutlineTransaction.isMissing])]

theorem foldlM_addFees (txns : List V2Transaction) (value : Currency) :
    (txns.map fun txn => (⟨c.sum256 txn.merkleLeafPreimage, none, some txn⟩ : OutlineTransaction)).foldlM
      OutlineTransaction.addFees value = addAll (txns.map V2Transaction.minerFee) value := by
  rw [addAll,List.foldlM_map,List.foldlM_map]
  rfl

/-- The outline is completed to the block it was made from. -/
theorem complete_outlineOf (h : validateBlock c s b bs = .ok ())
    (hinj : Set.InjOn (fun txn : V2Transaction => c.sum256 txn.merkleLeafPreimage)
      {txn | txn ∈ b.v2Transactions ∨ txn ∈ supplied})
    (homitted : ∀ txn ∈ b.v2Transactions, c.sum256 txn.merkleLeafPreimage ∈ remove → txn ∈ supplied) :
    ∃ filled, (outlineOf c b (s.index.height + 1) remove).complete c s [] supplied = .ok (b, [], filled) := by
  have hb := block_accepted h
  have hv2 := v2_accepted h
  obtain ⟨payout,hpayout,hvalue⟩ := hb.payout
  have hfilled : (b.v2Transactions.map (outlined c remove)).map (OutlineTransaction.fill c [] supplied) =
      b.v2Transactions.map fun txn => ⟨c.sum256 txn.merkleLeafPreimage,none,some txn⟩ := by
    rw [List.map_map]
    exact List.map_congr_left fun txn htxn =>
      fill_outlined hinj (fun t ht => .inr ht) (.inl htxn) (homitted txn htxn)
  have hfees : addAll (b.v2Transactions.map V2Transaction.minerFee) s.blockReward = .ok payout.value := by
    have hsum : ((b.v2Transactions.map V2Transaction.minerFee).map Currency.toNat).sum =
        (b.v2Transactions.map fun txn => txn.minerFee.toNat).sum := by
      rw [List.map_map]
      rfl
    have hbound := payout.value.toNat_lt
    obtain ⟨r,hr⟩ := addAll_returns (b.v2Transactions.map V2Transaction.minerFee) s.blockReward (by omega)
    have hsame := addAll_sum hr
    rw [hr,Currency.toNat_inj (show r.toNat = payout.value.toNat by omega)]
  have hnone : (b.v2Transactions.map fun txn =>
      (⟨c.sum256 txn.merkleLeafPreimage,none,some txn⟩ : OutlineTransaction)).filterMap OutlineTransaction.transaction = [] := by
    simp
  have hall : (b.v2Transactions.map fun txn =>
      (⟨c.sum256 txn.merkleLeafPreimage,none,some txn⟩ : OutlineTransaction)).filterMap OutlineTransaction.carriedV2 =
      b.v2Transactions := by
    rw [List.filterMap_map]
    exact List.filterMap_some
  have hmissing : (b.v2Transactions.map fun txn =>
      (⟨c.sum256 txn.merkleLeafPreimage,none,some txn⟩ : OutlineTransaction)).filter OutlineTransaction.isMissing = [] := by
    rw [List.filter_eq_nil_iff]
    refine List.forall_mem_map.mpr fun txn _ => ?_
    simp [OutlineTransaction.isMissing]
  refine ⟨{ outlineOf c b (s.index.height + 1) remove with
    transactions := b.v2Transactions.map fun txn => ⟨c.sum256 txn.merkleLeafPreimage,none,some txn⟩ },?_⟩
  rw [V2BlockOutline.complete,commitment_outlineOf]
  simp only [outlineOf,hfilled,foldlM_addFees,hfees,ok_bind,hnone,hall,V2BlockOutline.missing,hmissing,
    List.map_nil]
  have haddress : b.minerAddress = payout.address := by
    rw [Block.minerAddress,hpayout]
    rfl
  have hself : (⟨b.parentID,b.nonce,b.timestamp,[⟨payout.value,b.minerAddress⟩],[],
      some ⟨s.index.height + 1,s.commitment c b.minerAddress [] b.v2Transactions,b.v2Transactions⟩⟩ : Block) = b := by
    rw [← hv2,haddress,← hpayout,← hb.transactions]
  rw [hself]
  rfl

/-- On any state on which it is valid, a block from the wire is recovered from its outline, whatever
transactions the outline omits. -/
theorem outline_completes (c : Crypto) (cs : State) (b : Block) (bs : V1BlockSupplement) (set supplied : List V2Transaction)
    (r : Bytes) (hvalid : validateBlock c cs b bs = .ok ()) (hdecoded : b.Decoded c)
    (hinj : Set.InjOn c.sum256 {m | m ∈ (forEachElementLeaf c b.v2Transactions).flatMap (proofMessages c)})
    (hhash : Set.InjOn (fun txn : V2Transaction => c.sum256 txn.merkleLeafPreimage)
      {txn | txn ∈ b.v2Transactions ∨ txn ∈ supplied})
    (homitted : ∀ txn ∈ b.v2Transactions,
      c.sum256 txn.merkleLeafPreimage ∈ set.map (fun txn => c.sum256 txn.merkleLeafPreimage) → txn ∈ supplied)
    (hfits : ∀ ob bytes, outlineBlock c b [] set = .ok ob → ob.encode c = .ok bytes → bytes.length < 2^64) :
    ∃ ob bytes filled, outlineBlock c b [] set = .ok ob ∧ ob.id c cs = b.id c ∧ ob.encode c = .ok bytes ∧
      (V2BlockOutline.decode c).run (bytes ++ r) = .ok (ob, r) ∧ ob.complete c cs [] supplied = .ok (b, [], filled) := by
  have hb := block_accepted hvalid
  have hout := outlineBlock_accepted hvalid set
  set remove := set.map fun txn => c.sum256 txn.merkleLeafPreimage with hremove
  obtain ⟨n,hconsistent⟩ := accepted_consistent hb hdecoded hinj
  have hsubset : ∀ txn ∈ carried c remove b.v2Transactions, txn ∈ b.v2Transactions := fun txn htxn => mem_carried htxn
  have hencodes : ∀ proved, encodeMultiproof c (carried c remove b.v2Transactions) = .ok proved →
      ∃ bytes, (outlineOf c b (cs.index.height + 1) remove).encode c = .ok bytes ∧ proved.length ≤ bytes.length := by
    intro proved hproved
    have hproved' : encodeMultiproof c ((b.v2Transactions.map (outlined c remove)).filterMap OutlineTransaction.carriedV2) =
        .ok proved := hproved
    refine ⟨_,by rw [V2BlockOutline.encode,outlineOf,hproved',ok_bind]; rfl,?_⟩
    simp only [List.length_append]
    omega
  obtain ⟨-,proved,-,hproved,-,hread⟩ := (hconsistent.subset hsubset).run_multiproof
    (fun txn htxn => hdecoded.onWire txn (hsubset txn htxn)) fun proved hproved => by
      obtain ⟨bytes,hencode,hle⟩ := hencodes proved hproved
      exact hle.trans_lt (hfits _ bytes hout hencode)
  obtain ⟨bytes,hencode,-⟩ := hencodes proved hproved
  obtain ⟨filled,hcomplete⟩ := complete_outlineOf hvalid hhash homitted
  refine ⟨_,bytes,filled,hout,id_outlineOf (header_commitment_accepted hvalid) _ remove,hencode,?_,hcomplete⟩
  exact run_outline rfl hdecoded.wholeSecond hproved hread hencode (hfits _ bytes hout hencode) r

theorem outline_completes_sample : ∃ b ob bytes filled,
    outlineBlock sampleCrypto b [] b.v2Transactions = .ok ob ∧ ob.missing.length = 1 ∧
      ob.id sampleCrypto (sampleState ⟨fun _ => default, 0⟩) = b.id sampleCrypto ∧ ob.encode sampleCrypto = .ok bytes ∧
      (V2BlockOutline.decode sampleCrypto).run (bytes ++ [7]) = .ok (ob, [7]) ∧
      ob.complete sampleCrypto (sampleState ⟨fun _ => default, 0⟩) [] b.v2Transactions = .ok (b, [], filled) := by
  set s := sampleState ⟨fun _ => default,0⟩ with hs
  obtain ⟨b,hb,hcheck⟩ := exists_of_holds (x := candidateWithNonce sampleCrypto s sampleKeys [] sampleTime 0)
    (p := fun b => decide (forEachElementLeaf sampleCrypto b.v2Transactions = [] ∧ b.v2Transactions.length = 1) &&
      (outlineBlock sampleCrypto b [] b.v2Transactions).holds fun ob =>
        decide (ob.missing.length = 1) && (ob.encode sampleCrypto).holds fun bytes => decide (bytes.length < 2^64))
    (by decide +kernel)
  simp only [Bool.and_eq_true,decide_eq_true_iff] at hcheck
  obtain ⟨⟨hleaves,hone⟩,hout⟩ := hcheck
  obtain ⟨b',hb',-,hvalid⟩ := sampleBlock_valid ⟨fun _ => default,0⟩
  obtain rfl := Except.ok.inj (hb'.symm.trans hb)
  have hdecoded : b'.Decoded sampleCrypto := emptyCandidate_decoded rfl hb' (by decide +kernel) (by decide +kernel)
  obtain ⟨txn,htxns⟩ := List.length_eq_one_iff.mp hone
  obtain ⟨ob,bytes,filled,hob,hid,hencode,hdecode,hcomplete⟩ := outline_completes sampleCrypto s b' {}
    b'.v2Transactions b'.v2Transactions [7] hvalid hdecoded (by rw [hleaves]; exact fun x hx => absurd hx List.not_mem_nil)
    (fun t ht t' ht' _ => by
      rw [Set.mem_ofPred_eq,or_self,htxns,List.mem_singleton] at ht ht'
      rw [ht,ht'])
    (fun t ht _ => ht)
    (fun ob bytes hob hencode => by
      rw [hob] at hout
      simp only [holds,hencode,Bool.and_eq_true] at hout
      exact of_decide_eq_true hout.2)
  rw [hob] at hout
  simp only [holds,Bool.and_eq_true] at hout
  exact ⟨b',ob,bytes,filled,hob,of_decide_eq_true hout.1,hid,hencode,hdecode,hcomplete⟩

end Accepted

section Completion

def OutlineTransaction.fees (ot : OutlineTransaction) : Currency :=
  match ot.transaction, ot.v2Transaction with
  | some txn, _ => txn.totalFees
  | none, some txn => txn.minerFee
  | none, none => Currency.zeroCurrency

/-- What the payout of the completed block would add up to. -/
def V2BlockOutline.payout (c : Crypto) (ob : V2BlockOutline) (cs : State) (txns : List Transaction) (v2txns : List V2Transaction) : ℕ :=
  cs.blockReward.toNat + (ob.transactions.map fun ot => (ot.fill c txns v2txns).fees.toNat).sum

theorem addFees_eq_ok {value value' : Currency} {ot : OutlineTransaction} :
    OutlineTransaction.addFees value ot = .ok value' ↔ value.toNat + ot.fees.toNat = value'.toNat := by
  rw [OutlineTransaction.addFees,OutlineTransaction.fees]
  cases ot.transaction with
  | some txn => exact Currency.add_eq_ok
  | none =>
    cases ot.v2Transaction with
    | some txn => exact Currency.add_eq_ok
    | none =>
      rw [Currency.toNat_zeroCurrency,Nat.add_zero,Except.ok.injEq]
      exact ⟨congrArg Currency.toNat,Currency.toNat_inj⟩

theorem addFees_loop (ots : List OutlineTransaction) (value : Currency) :
    (∃ value', ots.foldlM OutlineTransaction.addFees value = .ok value') ↔
      value.toNat + (ots.map fun ot => ot.fees.toNat).sum < 2^128 := by
  induction ots generalizing value with
  | nil =>
    constructor
    · intro _
      simpa using value.toNat_lt
    · intro _
      exact ⟨value,rfl⟩
  | cons ot ots ih =>
    simp only [List.foldlM_cons,bind_eq_ok,addFees_eq_ok,List.map_cons,List.sum_cons]
    constructor
    · rintro ⟨value',mid,hmid,hrest⟩
      have := (ih mid).mp ⟨value',hrest⟩
      omega
    · intro hsmall
      obtain ⟨mid,hmid⟩ := Currency.exists_toNat (n := value.toNat + ot.fees.toNat) (by omega)
      obtain ⟨value',hrest⟩ := (ih mid).mpr (by omega)
      exact ⟨value',mid,hmid.symm,hrest⟩

/-- `Complete` returns exactly if the reward and the fees of the transactions at hand add up to less than 2^128. -/
theorem complete_returns_iff (c : Crypto) (ob : V2BlockOutline) (cs : State) (txns : List Transaction)
    (v2txns : List V2Transaction) :
    (∃ b missing filled, ob.complete c cs txns v2txns = .ok (b, missing, filled)) ↔ ob.payout c cs txns v2txns < 2^128 := by
  have hloop := addFees_loop (ob.transactions.map (OutlineTransaction.fill c txns v2txns)) cs.blockReward
  rw [List.map_map] at hloop
  simp only [V2BlockOutline.complete,bind_eq_ok,pure_eq_ok,Prod.mk.injEq]
  constructor
  · rintro ⟨b,missing,filled,value,hvalue,-⟩
    exact hloop.mp ⟨value,hvalue⟩
  · intro hsmall
    obtain ⟨value,hvalue⟩ := hloop.mpr hsmall
    exact ⟨_,_,_,value,hvalue,rfl,rfl,rfl⟩

def sampleGreedy : V2BlockOutline :=
  ⟨1, default, 0, sampleTime, default, List.replicate 2 (outlined sampleCrypto [] { minerFee := ⟨-1, -1⟩ })⟩

theorem complete_panics : ∃ bytes ob msg, (V2BlockOutline.decode sampleCrypto).run bytes = .ok (ob, []) ∧
    ob.complete sampleCrypto (sampleState ⟨fun _ => default, 0⟩) [] [] = .error (.panic msg) := by
  obtain ⟨⟨bytes,ob,rest⟩,hrun,hcheck⟩ := exists_of_holds
    (x := do
      let bytes ← sampleGreedy.encode sampleCrypto
      let r ← (V2BlockOutline.decode sampleCrypto).run bytes
      return (bytes, r))
    (p := fun r => r.2.2.isEmpty &&
      (r.2.1.complete sampleCrypto (sampleState ⟨fun _ => default,0⟩) [] []).panics) (by decide +kernel)
  simp only [bind_eq_ok,pure_eq_ok,Prod.mk.injEq] at hrun
  obtain ⟨bytes',-,r,hdecode,rfl,rfl⟩ := hrun
  simp only [Bool.and_eq_true,List.isEmpty_iff] at hcheck
  obtain ⟨rfl,hpanic⟩ := hcheck
  obtain ⟨msg,hcomplete⟩ := exists_of_panics hpanic
  exact ⟨bytes',ob,msg,hdecode,hcomplete⟩

end Completion

end QdayNode
