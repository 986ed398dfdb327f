import QdayNode.Consensus.EncodingSize

/-!
# What a block ID binds

A header holds the root of a Merkle tree over the state of the parent, the miner's
address and the transactions.  Without collisions the root determines all of them, and
what it leaves open of a block is fixed by `ValidateBlock`.
-/
namespace QdayNode
open ByteString MerkleTree

variable {S : Set Bytes} {s : State} {txn : V2Transaction}

section Commitment

variable (c : Crypto)

def commitmentHashing : Hashing Bytes Bytes Hash256 where
  hash := c.sum256
  leaf := fun x => 0 :: x
  pair := fun a b => 1 :: (a.val ++ b.val)
  leaf_injective := List.cons_injective
  pair_injective := by
    intro a a' b b' h
    have happend := List.cons_injective h
    obtain ⟨ha, hb⟩ := (prefixCode_fixedBytes 32).apply happend
    exact ⟨ha, Subtype.ext hb⟩
  leaf_ne_pair := by simp

/-- The accumulator computes the root that splits the list of leaves, and without collisions the root has
one list of leaves, empty or not. -/
theorem accumulator_root (c : Crypto) {S : Set Bytes} (hideal : IdealOn c.sum256 default S) :
    (∀ leaves : List Hash256, leaves.length < 2^63 →
      (leaves.foldl (Accumulator.addLeaf c.sumPair) (Accumulator.empty default)).root c.sumPair default = splitRoot c.sumPair default leaves) ∧
    ∀ contents contents' : List Bytes, contents.length < 2^63 → contents'.length < 2^63 →
      (∀ x ∈ (Tree.ofList contents).messages (commitmentHashing c) default, x ∈ S) →
      (∀ x ∈ (Tree.ofList contents').messages (commitmentHashing c) default, x ∈ S) →
      merkleRoot c.sumPair default (contents.map fun x => c.sum256 (0 :: x)) =
        merkleRoot c.sumPair default (contents'.map fun x => c.sum256 (0 :: x)) → contents = contents' := by
  refine ⟨fun leaves hlen => merkleRoot_eq_splitRoot _ _ (hlen.trans (by norm_num)),fun l l' hlen hlen' hS hS' heq => ?_⟩
  have hne : ∀ l : List Bytes, l.length < 2^63 → (∀ x ∈ (Tree.ofList l).messages (commitmentHashing c) default, x ∈ S) → l ≠ [] →
      merkleRoot c.sumPair default (l.map fun x => c.sum256 (0 :: x)) ≠ default := by
    intro l hlen hS hne
    rw [show merkleRoot c.sumPair default (l.map fun x => c.sum256 (0 :: x)) = _ from
      @merkleRoot_eq_digest _ _ _ (commitmentHashing c) default l]
    exact (Tree.split_ofList hne (hlen.trans (by norm_num))).full.digest_ne fun x hx => hideal.ne_sentinel x (hS x hx)
  have hnil : merkleRoot c.sumPair default (([] : List Bytes).map fun x => c.sum256 (0 :: x)) = default := merkleRoot_nil _ _
  by_cases hl : l = []
  · by_contra hcon
    refine hne l' hlen' hS' (fun hl' => hcon (hl.trans hl'.symm)) ?_
    rw [← heq,hl,hnil]
  · by_cases hl' : l' = []
    · refine absurd ?_ (hne l hlen hS hl)
      rw [heq,hl',hnil]
    · exact merkleRoot_injective hideal.inj hl hl' (hlen.trans (by norm_num)) (hlen'.trans (by norm_num)) hS hS' heq

theorem accumulator_root_three : ([sampleCrypto.sum256 [0, 1], sampleCrypto.sum256 [0, 2], sampleCrypto.sum256 [0, 3]].foldl
    (Accumulator.addLeaf sampleCrypto.sumPair) (Accumulator.empty default)).root sampleCrypto.sumPair default =
      splitRoot sampleCrypto.sumPair default [sampleCrypto.sum256 [0, 1], sampleCrypto.sum256 [0, 2], sampleCrypto.sum256 [0, 3]] :=
  (accumulator_root sampleCrypto (@idealOn_of_nodup _ sampleCrypto.sum256 default
    ((Tree.ofList [[1],[2],[3]]).messages (commitmentHashing sampleCrypto) default) (by decide +kernel) (by decide +kernel))).1 _ (by decide)

/-- The leaves of the commitment tree without their first bytes. -/
def State.commitmentContents (s : State) (minerAddr : Address) (txns : List Transaction) (v2txns : List V2Transaction) :
    List Bytes :=
  (Crypto.distinguisher "commitment" ++ [2] ++ (c.sum256 s.encode).val ++ minerAddr.val) ::
    (txns.map Transaction.encode ++ v2txns.map V2Transaction.encode)

def State.commitmentStrings (s : State) (minerAddr : Address) (txns : List Transaction) (v2txns : List V2Transaction) :
    List Bytes :=
  (Tree.ofList (s.commitmentContents c minerAddr txns v2txns)).messages (commitmentHashing c) default

variable {c} {s' : State} {minerAddr minerAddr' : Address} {txns txns' : List Transaction}
  {v2txns v2txns' : List V2Transaction}

theorem State.commitment_eq : s.commitment c minerAddr txns v2txns = merkleRoot (fun a b => (commitmentHashing c).hash
    ((commitmentHashing c).pair a b)) default ((s.commitmentContents c minerAddr txns v2txns).map fun x =>
      (commitmentHashing c).hash ((commitmentHashing c).leaf x)) := by
  rw [commitment,commitmentLeaves,commitmentContents]
  simp only [List.map_cons,List.map_append,List.map_map]
  rfl

/-- Without collisions a commitment has one state hash, one address and one list of encodings. -/
theorem State.commitment_injective (hinj : Set.InjOn c.sum256 S)
    (hcount : txns.length + v2txns.length + 1 < 2^64) (hcount' : txns'.length + v2txns'.length + 1 < 2^64)
    (hS : ∀ x ∈ s.commitmentStrings c minerAddr txns v2txns, x ∈ S)
    (hS' : ∀ x ∈ s'.commitmentStrings c minerAddr' txns' v2txns', x ∈ S)
    (heq : s.commitment c minerAddr txns v2txns = s'.commitment c minerAddr' txns' v2txns') :
    c.sum256 s.encode = c.sum256 s'.encode ∧ minerAddr = minerAddr' ∧
      txns.map Transaction.encode ++ v2txns.map V2Transaction.encode =
        txns'.map Transaction.encode ++ v2txns'.map V2Transaction.encode := by
  have hlength : ∀ (s : State) (a : Address) (txns : List Transaction) (v2txns : List V2Transaction),
      (s.commitmentContents c a txns v2txns).length = txns.length + v2txns.length + 1 := by
    intro s a txns v2txns
    simp [commitmentContents]
  rw [commitment_eq,commitment_eq] at heq
  have hne : ∀ (s : State) (a : Address) (txns : List Transaction) (v2txns : List V2Transaction),
      s.commitmentContents c a txns v2txns ≠ [] := fun _ _ _ _ => List.cons_ne_nil _ _
  have hcontents := merkleRoot_injective hinj (hne s _ _ _) (hne s' _ _ _) (by rwa [hlength]) (by rwa [hlength]) hS hS' heq
  obtain ⟨hfirst,hrest⟩ := List.cons.inj hcontents
  simp only [List.append_assoc] at hfirst
  obtain ⟨hstate,haddr⟩ := (prefixCode_fixedBytes 32).apply (List.append_cancel_left (List.append_cancel_left hfirst))
  exact ⟨hstate,Subtype.ext haddr,hrest⟩

end Commitment

section Encodings

variable {c : Crypto} {ms : MidState}

theorem swapBranch_onWire {k : QdayKeys} {lock : SpendPolicy} (h : SpendPolicy.IsLock lock) (levels : ℕ) :
    (swapBranch k lock).OnWire (levels + 2) := by
  refine ⟨by simp,?_⟩
  cases h with
  | hash x => simp [SpendPolicy.OnWire]
  | above height => simp [SpendPolicy.OnWire]

theorem SpendAccepted.onWire {sigHash : Hash256} {sci : V2SiacoinInput} (h : SpendAccepted c ms sigHash sci) :
    sci.satisfiedPolicy.policy.OnWire (SpendPolicy.maxPolicyDepth + 1) := by
  obtain hnative | ⟨-,hswap⟩ := h.shape
  · obtain ⟨k,hk⟩ := nativePolicy_eq hnative
    rw [hk]
    refine ⟨by simp,?_⟩
    simp [SpendPolicy.OnWire]
  · obtain ⟨k,lock,a,ps,hp,hshown,hlock⟩ := swapPolicy_eq hswap
    have hbranch : (swapBranch k lock).OnWire SpendPolicy.maxPolicyDepth := swapBranch_onWire hlock 30
    rw [hp]
    obtain rfl | rfl := hshown
    · exact ⟨by simp,by simpa using ⟨hbranch,trivial⟩⟩
    · exact ⟨by simp,by simpa using ⟨trivial,hbranch⟩⟩

theorem Admitted.onWire (h : Admitted c ms txn) : txn.OnWire := by
  obtain ⟨hsfi,-⟩ := V2Transaction.supported_iff.mp h.supported
  refine ⟨?_,by simp [hsfi]⟩
  cases h with
  | inl hmarker => simp [hmarker.inputs]
  | inr htransfer => exact fun sci hsci => (spends_accepted htransfer.valid sci hsci).onWire

theorem encode_injective {txn' : V2Transaction} (h : txn.OnWire) (h' : txn'.OnWire) (hlen : txn.encode.length < 2^64)
    (heq : txn.encode = txn'.encode) : txn = txn' :=
  V2Transaction.reads_v2Transaction.prefixCodeOn.inj ⟨h,hlen⟩ ⟨h',heq ▸ hlen⟩ heq

theorem encodings_injective {txns txns' : List V2Transaction} (h : ∀ txn ∈ txns, txn.OnWire) (h' : ∀ txn ∈ txns', txn.OnWire)
    (hlen : ∀ txn ∈ txns, txn.encode.length < 2^64)
    (heq : txns.map V2Transaction.encode = txns'.map V2Transaction.encode) : txns = txns' := by
  induction txns generalizing txns' with
  | nil => exact (List.map_eq_nil_iff.mp heq.symm).symm
  | cons txn txns ih =>
    cases txns' with
    | nil => cases heq
    | cons txn' txns' =>
      obtain ⟨hhead,htail⟩ := List.cons.inj heq
      rw [List.forall_mem_cons] at h h' hlen
      rw [encode_injective h.1 h'.1 hlen.1 hhead,ih h.2 h'.2 hlen.2 htail]

end Encodings

section Blocks

variable {c : Crypto} {b b' : Block} {bs bs' : V1BlockSupplement}

def Block.minerAddress (b : Block) : Address := (b.minerPayouts.headD ⟨Currency.zeroCurrency, default⟩).address

def Block.commitmentStrings (c : Crypto) (s : State) (b : Block) : List Bytes :=
  s.commitmentStrings c b.minerAddress b.transactions b.v2Transactions

/-- The block has a size that a machine can hold. -/
structure Block.Fits (b : Block) : Prop where
  count : b.v2Transactions.length < 2^63
  sizes : ∀ txn ∈ b.v2Transactions, txn.encode.length < 2^64

theorem v2_accepted (h : validateBlock c s b bs = .ok ()) :
    b.v2 = some ⟨s.index.height + 1, s.commitment c b.minerAddress [] b.v2Transactions, b.v2Transactions⟩ := by
  have hb := block_accepted h
  obtain ⟨⟨height,commitment,txns⟩,hv2⟩ := Option.isSome_iff_exists.mp hb.hasV2
  simp only [validateBlock,validateOrphan,Outcome.bind_unit_eq_ok,Outcome.rejectIf_eq_ok,hv2,Option.any_some,
    hb.transactions] at h
  obtain ⟨-,⟨-,-,-,hheight⟩,-,hcommitment,-⟩ := h
  have htxns : b.v2Transactions = txns := by rw [Block.v2Transactions,hv2]
  rw [hv2,htxns]
  rw [htxns] at hcommitment
  simp only [decide_eq_true_eq,not_not] at hheight hcommitment
  rw [hheight,hcommitment]
  rfl

theorem header_commitment_accepted (h : validateBlock c s b bs = .ok ()) :
    (b.header c).commitment = s.commitment c b.minerAddress [] b.v2Transactions := by
  rw [Block.header,v2_accepted h]

theorem header_eq_of_id {h h' : BlockHeader} (hinj : Set.InjOn c.sum256 S) (hS : h.preimage ∈ S) (hS' : h'.preimage ∈ S)
    (hwhole : h.timestamp.WholeSecond) (hwhole' : h'.timestamp.WholeSecond) (hid : h.id c = h'.id c) : h = h' := by
  have heq := hinj hS hS' hid
  simp only [BlockHeader.preimage,List.append_assoc] at heq
  obtain ⟨hparent,heq⟩ := (prefixCode_fixedBytes 32).apply heq
  obtain ⟨hnonce,heq⟩ := prefixCode_encodeUint64.apply heq
  obtain ⟨htime,heq⟩ := Time.prefixCode_encode hwhole hwhole' heq
  have hcommitment := Subtype.ext heq
  cases h
  cases h'
  cases hparent
  cases hnonce
  cases htime
  cases hcommitment
  rfl

/-- Two valid blocks on one state with the same header are the same block. -/
theorem block_unique (hinj : Set.InjOn c.sum256 S) (h : validateBlock c s b bs = .ok ())
    (h' : validateBlock c s b' bs' = .ok ()) (hfits : b.Fits) (hfits' : b'.Fits)
    (hS : ∀ x ∈ b.commitmentStrings c s, x ∈ S) (hS' : ∀ x ∈ b'.commitmentStrings c s, x ∈ S)
    (heq : b.header c = b'.header c) : b = b' := by
  have hb := block_accepted h
  have hb' := block_accepted h'
  rw [Block.commitmentStrings,hb.transactions] at hS
  rw [Block.commitmentStrings,hb'.transactions] at hS'
  have hcommitment := congrArg BlockHeader.commitment heq
  rw [header_commitment_accepted h,header_commitment_accepted h'] at hcommitment
  have hcount := hfits.count
  have hcount' := hfits'.count
  obtain ⟨-,haddress,hencodings⟩ := State.commitment_injective hinj (by rw [List.length_nil]; omega)
    (by rw [List.length_nil]; omega) hS hS' hcommitment
  have htxns : b.v2Transactions = b'.v2Transactions := by
    have honWire : ∀ {b : Block} {bs : V1BlockSupplement}, BlockAccepted c s b bs → ∀ txn ∈ b.v2Transactions, txn.OnWire := by
      intro b bs hb txn htxn
      obtain ⟨ms,hadmitted⟩ := hb.mem_admitted htxn
      exact hadmitted.onWire
    exact encodings_injective (honWire hb) (honWire hb') hfits.sizes hencodings
  obtain ⟨payout,hpayout,hvalue⟩ := hb.payout
  obtain ⟨payout',hpayout',hvalue'⟩ := hb'.payout
  have hpayouts : payout = payout' := by
    rw [Block.minerAddress,Block.minerAddress,hpayout,hpayout'] at haddress
    rw [htxns,← hvalue'] at hvalue
    have hsame : payout.value = payout'.value := Currency.toNat_inj hvalue
    have hto : payout.address = payout'.address := haddress
    cases payout
    cases payout'
    cases hsame
    cases hto
    rfl
  have hv2 : b.v2 = b'.v2 := by rw [v2_accepted h,v2_accepted h',htxns,haddress]
  have hparent : b.parentID = b'.parentID := congrArg BlockHeader.parentID heq
  have hnonce : b.nonce = b'.nonce := congrArg BlockHeader.nonce heq
  have htimestamp : b.timestamp = b'.timestamp := congrArg BlockHeader.timestamp heq
  have htransactions : b.transactions = b'.transactions := hb.transactions.trans hb'.transactions.symm
  have hminer : b.minerPayouts = b'.minerPayouts := by rw [hpayout,hpayout',hpayouts]
  cases b
  cases b'
  cases hparent
  cases hnonce
  cases htimestamp
  cases htransactions
  cases hminer
  cases hv2
  rfl

end Blocks

end QdayNode
