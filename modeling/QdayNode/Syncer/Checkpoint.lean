import QdayNode.Consensus.StateCodec
import QdayNode.Consensus.Verdict

/-!
# Checkpoints

A node that syncs from a checkpoint knows the ID of a block and asks a peer for the block
and the state of its parent.  `SendCheckpoint` compares the ID and the commitment, and
`NewDBStoreAtCheckpoint` applies the block without validating it.  The commitment binds
the state, the miner's address and the transactions, but not the value of the miner
payout: that is fixed by `ValidateBlock` alone.
-/
namespace QdayNode
open ByteString Decoder MerkleTree
open Outcome hiding fail

/-- The zero value of a state, with the network that `SendCheckpoint` sets. -/
def zeroState (n : Network) : State where
  qdayHeight := 0
  network := n
  index := ⟨0, default⟩
  prevTimestamps := ⟨List.replicate 11 default, rfl⟩
  depth := default
  childTarget := default
  siafundTaxRevenue := Currency.zeroCurrency
  oakTime := 0
  oakTarget := default
  foundationSubsidyAddress := default
  foundationManagementAddress := default
  totalWork := ⟨0, 0, 0, 0⟩
  difficulty := ⟨0, 0, 0, 0⟩
  oakWork := ⟨0, 0, 0, 0⟩
  elements := ⟨fun _ => default, 0⟩
  attestations := 0

section Model

variable (c : Crypto)

def decodeCheckpoint (n : Network) : Decoder (State × Block) := do
  let b ← Block.decode c
  let s ← (zeroState n).decode
  return (s, b)

def maxCheckpointLen : ℕ := 5004000

def sendCheckpoint (index : ChainIndex) (n : Network) (response : Bytes) : Outcome (State × Block) := do
  let ((s, b), _) ← (decodeCheckpoint c n).run (response.take maxCheckpointLen)
  rejectIf (b.v2 = none ∨ b.minerPayouts.length ≠ 1) "checkpoint is not a v2 block"
  rejectIf (b.id c ≠ index.id) "checkpoint has wrong index"
  rejectIf (b.v2.any (fun v2 => v2.commitment ≠ s.commitment c b.minerAddress b.transactions b.v2Transactions) = true)
    "checkpoint has wrong commitment"
  return (s, b)

/-- `NewDBStoreAtCheckpoint`: the tip state and the update that the store is given.  A panic is
returned as an error. -/
def newDBStoreAtCheckpoint (cs : State) (b : Block) : Outcome (State × ApplyUpdate) :=
  match applyBlock c cs b { transactions := List.replicate b.transactions.length {} } default with
  | .ok r => .ok r
  | .error _ => Outcome.fail "panic during database initialization"

end Model

section Accepted

variable {c : Crypto}

theorem yields_state {receiver : State} (h : receiver.Whole) :
    Yields (fun s : State => s.Whole ∧ s.network = receiver.network) receiver.decode := by
  refine yields_bind fun index => (yields_time.readCount _).bind fun ts hts => ?_
  refine yields_bind fun _ => yields_bind fun _ => yields_bind fun _ => yields_bind fun _ => yields_bind fun _ => ?_
  refine yields_bind fun _ => yields_bind fun _ => yields_bind fun _ => yields_bind fun _ => yields_bind fun _ => ?_
  refine yields_bind fun _ => yields_bind fun _ => yields_bind fun _ => yields_pure ⟨fun t ht => ?_,rfl⟩
  rcases List.mem_append.mp (List.mem_of_mem_take ht) with ht | ht
  · exact hts.2 t ht
  · exact h t (List.mem_of_mem_drop ht)

theorem zeroState_whole (n : Network) : (zeroState n).Whole := by
  intro t ht
  rw [List.eq_of_mem_replicate ht]
  rfl

/-- What `SendCheckpoint` has checked of a response. -/
structure AcceptedCheckpoint (c : Crypto) (index : ChainIndex) (n : Network) (s : State) (b : Block) : Prop where
  whole : s.Whole
  network : s.network = n
  decoded : b.Decoded c
  payout : ∃ payout, b.minerPayouts = [payout]
  hasV2 : b.v2.isSome = true
  id : b.id c = index.id
  commitment : (b.header c).commitment = s.commitment c b.minerAddress b.transactions b.v2Transactions

theorem checkpoint_accepted {index : ChainIndex} {n : Network} {response : Bytes} {s : State} {b : Block}
    (h : sendCheckpoint c index n response = .ok (s, b)) : AcceptedCheckpoint c index n s b := by
  simp only [sendCheckpoint,bind_eq_ok,pure_eq_ok,rejectIf_eq_ok] at h
  obtain ⟨⟨⟨s₀,b₀⟩,rest⟩,hdecode,_,hv2,_,hid,_,hcommitment,h⟩ := h
  obtain ⟨rfl,rfl⟩ := Prod.mk.inj h
  simp only [decodeCheckpoint,run_bind,run_pure,bind_eq_ok,Except.ok.injEq,Prod.mk.injEq] at hdecode
  obtain ⟨⟨_,_⟩,hb,⟨_,_⟩,hs,⟨rfl,rfl⟩,-⟩ := hdecode
  obtain ⟨hwhole,hnetwork⟩ := yields_state (zeroState_whole n) _ _ _ hs
  rw [not_or,not_not] at hv2
  obtain ⟨v2,hsome⟩ := Option.ne_none_iff_exists'.mp hv2.1
  refine ⟨hwhole,hnetwork,⟨_,_,hb⟩,List.length_eq_one_iff.mp hv2.2,by rw [hsome]; rfl,not_not.mp hid,?_⟩
  rw [hsome,Option.any_some,decide_eq_true_eq,not_not] at hcommitment
  rw [Block.header,hsome]
  exact hcommitment

def checkpointStrings (c : Crypto) (s : State) (b : Block) : List Bytes :=
  s.encode :: (b.header c).preimage :: b.commitmentStrings c s

variable {S : Set Bytes} {index : ChainIndex} {n : Network} {s s' : State} {b b' : Block} {bs : V1BlockSupplement}

/-- What the ID of a valid block binds of a response: the state up to what nothing reads, the header,
the miner and, unless v1 transactions are slipped in, the transactions. -/
theorem AcceptedCheckpoint.binds (h : AcceptedCheckpoint c index n s' b') (hinj : Set.InjOn c.sum256 S)
    (hvalid : validateBlock c s b bs = .ok ()) (hs : s.Whole) (hnetwork : s.network = n) (hb : b.timestamp.WholeSecond)
    (hfits : b.Fits) (hcount : b'.transactions.length + b'.v2Transactions.length < 2^63) (hid : b.id c = index.id)
    (hS : ∀ x ∈ checkpointStrings c s b, x ∈ S) (hS' : ∀ x ∈ checkpointStrings c s' b', x ∈ S) :
    s.Alike s' ∧ b'.header c = b.header c ∧ b'.minerAddress = b.minerAddress ∧
      (b'.transactions = [] → b'.v2Transactions = b.v2Transactions) := by
  have haccepted := block_accepted hvalid
  simp only [checkpointStrings,List.forall_mem_cons] at hS hS'
  have hheader : b.header c = b'.header c :=
    header_eq_of_id hinj hS.2.1 hS'.2.1 hb h.decoded.wholeSecond (hid.trans h.id.symm)
  have hcommitment := congrArg BlockHeader.commitment hheader
  rw [header_commitment_accepted hvalid,h.commitment] at hcommitment
  have hstrings := hS.2.2
  rw [Block.commitmentStrings,haccepted.transactions] at hstrings
  have hsmall := hfits.count
  obtain ⟨hstate,haddress,hencodings⟩ := State.commitment_injective hinj (by rw [List.length_nil]; omega) (by omega)
    hstrings hS'.2.2 hcommitment
  refine ⟨State.alike_of_encode hs h.whole (h.network.trans hnetwork.symm) ?_,hheader.symm,haddress.symm,fun hnone => ?_⟩
  · exact (hinj hS.1 hS'.1 hstate).symm
  · rw [hnone,List.map_nil,List.nil_append,List.nil_append] at hencodings
    refine (encodings_injective (fun txn htxn => ?_) h.decoded.onWire hfits.sizes hencodings).symm
    obtain ⟨ms,hadmitted⟩ := haccepted.mem_admitted htxn
    exact hadmitted.onWire

end Accepted

section Tip

variable {c : Crypto} {S : Set Bytes} {s s' : State} {b b' : Block} {bs : V1BlockSupplement} {t : Time}

theorem applyBlock_congr (hheader : b'.header c = b.header c) (htxns : b'.transactions = b.transactions)
    (hv2txns : b'.v2Transactions = b.v2Transactions) (hpayouts : b'.minerPayouts = b.minerPayouts) :
    applyBlock c s b' bs t = applyBlock c s b bs t := by
  have hparent : b'.parentID = b.parentID := congrArg BlockHeader.parentID hheader
  have hid : b'.id c = b.id c := congrArg (BlockHeader.id c) hheader
  simp only [applyBlock,MidState.applyBlock,hparent,hid,hheader,htxns,hv2txns,hpayouts]

theorem payouts_iff (hvalid : validateBlock c s b bs = .ok ()) (halike : s.Alike s') (htxns : b'.transactions = [])
    (hv2txns : b'.v2Transactions = b.v2Transactions) (hv2 : b'.v2.isSome = true)
    (hpayout : ∃ payout, b'.minerPayouts = [payout]) (haddress : b'.minerAddress = b.minerAddress) :
    validateMinerPayouts s' b' = .ok () ↔ b'.minerPayouts = b.minerPayouts := by
  have hb := block_accepted hvalid
  have hreward : s'.blockReward = s.blockReward := by
    obtain ⟨_,_,_,_⟩ := halike
    rfl
  constructor
  · intro haccepts
    obtain ⟨payout,hpayout,hvalue⟩ := hb.payout
    obtain ⟨payout',hpayout'⟩ := ‹∃ payout, b'.minerPayouts = [payout]›
    have hsum := payouts_accepted htxns haccepts
    rw [hpayout',List.map_singleton,List.sum_singleton,hreward,hv2txns,← hvalue] at hsum
    have hsame : payout'.value = payout.value := Currency.toNat_inj hsum
    have hto : payout'.address = payout.address := by
      rwa [Block.minerAddress,Block.minerAddress,hpayout,hpayout'] at haddress
    rw [hpayout,hpayout']
    cases payout
    cases payout'
    cases hsame
    cases hto
    rfl
  · intro hpayouts
    simp only [validateBlock,validateOrphan,bind_unit_eq_ok] at hvalid
    obtain ⟨-,⟨-,haccepts,-⟩,-⟩ := hvalid
    rw [validateMinerPayouts,hb.transactions,hb.hasV2] at haccepts
    rw [validateMinerPayouts,htxns,hv2txns,hpayouts,hreward,hv2]
    exact haccepts

/-- The coin of a payout that the block at `s` makes. -/
def payoutCoin (c : Crypto) (s : State) (bid : BlockID) (payout : SiacoinOutput) : Coin :=
  ⟨minerOutputID c bid 0, payout, s.childHeight + s.network.maturityDelay⟩

variable {m : QdayManifest} {pre : List Block} {before : Chain}

theorem payout_ledger (hideal : IdealOn c.sum256 default S) (h : Chain.Valid c m S pre before)
    (hvalid : validateBlock c before.state b {} = .ok ()) (hhashed : Hashed c S before.leaves b)
    (hbid : b.id c ∉ (chainHeaders c m pre).map (BlockHeader.id c)) (payout : SiacoinOutput)
    (htxns : b'.transactions = []) (hv2txns : b'.v2Transactions = b.v2Transactions) (hid : b'.id c = b.id c)
    (hpayout : b'.minerPayouts = [payout]) {ms : MidState} (hms : (newMidState before.state).applyBlock c b' {} = .ok ms) :
    BlockLedger before.state (createdCoins c m pre) before.unspent b.v2Transactions
      (coinsOf c before.state.childHeight b.v2Transactions ++ [payoutCoin c before.state (b.id c) payout]) ms ∧
      Tracked c b.v2Transactions ms := by
  have hb := block_accepted hvalid
  obtain ⟨ms₁,hrun,hblock,-⟩ := hb.transactions_ledger hideal.inj h.ledger hhashed.identified
    fun txn htxn => h.member hideal hhashed.inputs hhashed.forest htxn
  obtain ⟨p,hp,-⟩ := hb.payout
  obtain ⟨hnew,hnone⟩ := payout_fresh hideal.inj h.ledger hhashed.identified hblock hbid
    (hhashed.payouts 0 (by rw [hp]; exact Nat.one_pos))
  obtain ⟨ms₂,hcreate,-,-,hledger⟩ := hblock.create (payoutCoin c before.state (b.id c) payout) hnew hnone
  obtain ⟨ms₃,hrun',htracked,-⟩ := hb.run_tracked
  obtain rfl := Except.ok.inj (hrun.symm.trans hrun')
  obtain ⟨ms₄,hcreate',htracked',-⟩ := htracked.create (before.state.childHeight + before.state.network.maturityDelay)
    (minerOutputID c (b.id c) 0) payout
  obtain rfl := Except.ok.inj (hcreate.symm.trans hcreate')
  have happly : (newMidState before.state).applyBlock c b' {} = .ok ms₂ := by
    rw [applyBlock_payout htxns ⟨rfl,rfl⟩ (hv2txns ▸ hrun) hpayout,hid,MidState.createImmatureSiacoinElement,hblock.base]
    exact hcreate
  obtain rfl := Except.ok.inj (hms.symm.trans happly)
  exact ⟨hledger,htracked'⟩

theorem mem_storedAfter {created unspent coins : List Coin} {txns : List V2Transaction} {ms : MidState} {leaves : List StoredLeaf}
    {ci : ChainIndex} (h : BlockLedger s created unspent txns coins ms) (hroom : (storedAfter leaves ms.sces ci).length < 2^64 - 1)
    {k : Coin} (hk : k ∈ coins) : ∃ l ∈ storedAfter leaves ms.sces ci, l.element = .coin k := by
  obtain ⟨d,hrecord,hcreated,hcoin⟩ := h.listed k hk
  have hmem : d ∈ ms.sces := (h.keyed.record_eq_some.mp hrecord).1
  refine ⟨⟨.coin d.siacoinElement.coin,d.spent⟩,?_,by rw [hcoin]⟩
  have hall : storedAfter leaves ms.sces ci = leaves.map (StoredLeaf.markSpent ms.sces) ++ createdLeaves ms.sces ci := by
    refine List.take_of_length_le ?_
    rw [storedAfter,List.length_take] at hroom
    omega
  rw [hall]
  refine List.mem_append_right _ (List.mem_append_left _ (List.mem_map.mpr ⟨d,?_,rfl⟩))
  exact List.mem_filter.mpr ⟨hmem,hcreated⟩

/-- Accumulators that are alike after two payouts of one block have taken the same payout. -/
theorem payout_unique (hideal : IdealOn c.sum256 default S) (h : Chain.Valid c m S pre before)
    (hvalid : validateBlock c before.state b {} = .ok ()) (hhashed : Hashed c S before.leaves b)
    (hbid : b.id c ∉ (chainHeaders c m pre).map (BlockHeader.id c)) {payout payout' : SiacoinOutput} {ms ms' : MidState}
    {acc acc' : ElementAccumulator} {leaves leaves' : List StoredLeaf}
    (hledger : BlockLedger before.state (createdCoins c m pre) before.unspent b.v2Transactions
      (coinsOf c before.state.childHeight b.v2Transactions ++ [payoutCoin c before.state (b.id c) payout]) ms)
    (hledger' : BlockLedger before.state (createdCoins c m pre) before.unspent b.v2Transactions
      (coinsOf c before.state.childHeight b.v2Transactions ++ [payoutCoin c before.state (b.id c) payout']) ms')
    (hleaves : leaves = storedAfter before.leaves ms.sces ⟨before.state.childHeight, b.id c⟩)
    (hleaves' : leaves' = storedAfter before.leaves ms'.sces ⟨before.state.childHeight, b.id c⟩)
    (hknown : ∀ l ∈ createdLeaves ms.sces ⟨before.state.childHeight, b.id c⟩, l.element.preimage ∈ S)
    (hknown' : ∀ l ∈ createdLeaves ms'.sces ⟨before.state.childHeight, b.id c⟩, l.element.preimage ∈ S)
    (hrep : Represents c acc (leafHashes c (leaves.map (StoredLeaf.record c))))
    (hrep' : Represents c acc' (leafHashes c (leaves'.map (StoredLeaf.record c)))) (halike : acc.Alike acc')
    (hforest : ∀ x ∈ forestMessages c (leaves.map (StoredLeaf.record c)), x ∈ S)
    (hforest' : ∀ x ∈ forestMessages c (leaves'.map (StoredLeaf.record c)), x ∈ S)
    (hroom : leaves.length < 2^64 - 1) : payout = payout' := by
  have hrecords := hrep.records_unique hideal.inj hrep' halike.numLeaves halike.trees hforest hforest'
  have hlist := h.leaves.after hledger hknown
  have hlist' := h.leaves.after hledger' hknown'
  subst hleaves hleaves'
  obtain ⟨l,hl,helement⟩ := mem_storedAfter hledger hroom (List.mem_append_right _ (List.mem_singleton.mpr rfl))
  -- the other list has a leaf with the same record, and so with the same coin
  obtain ⟨l',hl',hrecord⟩ := List.mem_map.mp (hrecords ▸ List.mem_map_of_mem (f := StoredLeaf.record c) hl)
  have hpreimage : l'.element.preimage = l.element.preimage :=
    hideal.inj (hlist'.known l' hl') (hlist.known l hl) (congrArg LeafRecord.elementHash hrecord)
  rw [helement] at hpreimage
  have hcoin : l'.element = .coin (payoutCoin c before.state (b.id c) payout) :=
    StoredElement.eq_coin (e := ⟨_,StateElement.unassigned,_,_⟩) hpreimage
  have hb := block_accepted hvalid
  obtain ⟨p,hp,-⟩ := hb.payout
  have hpayout := hhashed.payouts 0 (by rw [hp]; exact Nat.one_pos)
  rcases List.mem_append.mp (hlist'.created l' hl' _ hcoin) with hold | hnew
  · obtain ⟨ms₁,-,hblock,-⟩ := hb.transactions_ledger hideal.inj h.ledger hhashed.identified
      fun txn htxn => h.member hideal hhashed.inputs hhashed.forest htxn
    exact absurd (List.mem_map_of_mem (f := Coin.id) hold)
      (payout_fresh hideal.inj h.ledger hhashed.identified hblock hbid hpayout).1
  · rcases List.mem_append.mp hnew with houtput | hsame
    · exact absurd rfl (payout_ne_output hideal.inj hhashed.identified hpayout houtput)
    · exact congrArg Coin.output (List.mem_singleton.mp hsame)

def QdayManifest.genesisStrings (c : Crypto) (m : QdayManifest) : List Bytes :=
  (m.genesis.header c).preimage :: (Tree.ofList [m.genesisTransaction.encode]).messages (commitmentHashing c) default

theorem AcceptedCheckpoint.ne_genesis {index : ChainIndex} {n : Network} (h : AcceptedCheckpoint c index n s' b')
    (hinj : Set.InjOn c.sum256 S) (hgenesis : m.network.genesisTimestamp.WholeSecond)
    (hcount : b'.transactions.length + b'.v2Transactions.length < 2^63)
    (hS : ∀ x ∈ m.genesisStrings c, x ∈ S) (hS' : ∀ x ∈ checkpointStrings c s' b', x ∈ S) :
    index.id ≠ m.genesis.id c := by
  intro hid
  simp only [checkpointStrings,QdayManifest.genesisStrings,List.forall_mem_cons] at hS hS'
  have hheader : b'.header c = m.genesis.header c :=
    header_eq_of_id hinj hS'.2.1 hS.1 h.decoded.wholeSecond hgenesis (h.id.trans hid)
  have hroot : s'.commitment c b'.minerAddress b'.transactions b'.v2Transactions =
      merkleRoot (fun a b => (commitmentHashing c).hash ((commitmentHashing c).pair a b)) default
        ([m.genesisTransaction.encode].map fun x => (commitmentHashing c).hash ((commitmentHashing c).leaf x)) :=
    h.commitment.symm.trans (congrArg BlockHeader.commitment hheader)
  rw [State.commitment_eq] at hroot
  have hcontents := merkleRoot_injective hinj (List.cons_ne_nil _ _) (List.cons_ne_nil _ _)
    (by simp only [List.length_cons,List.length_append,List.length_map]; omega)
    (by rw [List.length_singleton]; decide) hS'.2.2 hS.2 hroot
  have hfirst := (List.cons.inj hcontents).1
  have hbyte := congrArg (List.take 1) hfirst
  simp only [List.append_assoc] at hbyte
  have hzero : m.genesisTransaction.encode.take 1 = [0] := rfl
  rw [List.take_append_of_le_length (by decide),hzero] at hbyte
  exact absurd hbyte (by decide)

/-- With v1 transactions there is no tip state, and without them the update is that of the block on the
state of the true parent. -/
theorem AcceptedCheckpoint.replay {tip : State} {au : ApplyUpdate} (halike : s.Alike s') (hs : s.Counted)
    (hheight : ¬ s.childHeight < Network.v2Height) (htip : newDBStoreAtCheckpoint c s' b' = .ok (tip, au)) :
    b'.transactions = [] ∧ applyBlock c s' b' {} default = .ok (tip, au) ∧
      ∃ tip₀, applyBlock c s b' {} default = .ok (tip₀, au) ∧ tip₀.Alike tip := by
  have happly : applyBlock c s' b' { transactions := List.replicate b'.transactions.length {} } default = .ok (tip, au) := by
    unfold newDBStoreAtCheckpoint at htip
    split at htip
    · next r hr => rw [hr,Except.ok.inj htip]
    · cases htip
  have hheight' : (newMidState s').base.childHeight = s.childHeight := by
    obtain ⟨_,_,_,_⟩ := halike
    rfl
  have hnone : b'.transactions = [] := by
    obtain ⟨ms,out,ha⟩ := applyBlock_inv happly
    have hms := ha.midState
    rw [MidState.applyBlock,bind_unit_eq_ok,crashIf_eq_ok,hheight'] at hms
    by_contra hne
    refine hms.1 ⟨UInt64.not_lt.mp hheight,.inl ?_⟩
    rw [List.length_replicate]
    exact fun hzero => hne (List.length_eq_zero_iff.mp hzero)
  rw [hnone] at happly
  have hagree := halike.applyBlock (c := c) hs b' {} default
  have happly' : applyBlock c s' b' {} default = .ok (tip, au) := happly
  rw [happly'] at hagree
  obtain ⟨⟨tip₀,au₀⟩,happly₀,hstate,hupdate⟩ := hagree.exists_left
  obtain rfl : au = au₀ := hupdate
  exact ⟨hnone,happly',tip₀,happly₀,hstate⟩

/-- The tip state computed from a checkpoint is that of the chain exactly if the payout of the block
that was sent is the one that validation asks for. -/
theorem checkpoint_tip_iff (target : State → Block → Time) {index : ChainIndex} {response : Bytes} {tip : State} {au : ApplyUpdate}
    (hideal : IdealOn c.sum256 default S) (hgenesis : m.network.genesisTimestamp.WholeSecond)
    (hresponse : sendCheckpoint c index m.network response = .ok (s', b'))
    (hcount : b'.transactions.length + b'.v2Transactions.length < 2^63)
    (hS' : ∀ x ∈ checkpointStrings c s' b', x ∈ S)
    (htip : newDBStoreAtCheckpoint c s' b' = .ok (tip, au)) :
    ((∀ x ∈ m.genesisStrings c, x ∈ S) → index.id ≠ m.genesis.id c) ∧
    ∀ blocks b before ch, runChain c target m blocks = .ok before → before.extend c target b = .ok ch →
      (∀ b' ∈ blocks ++ [b], b'.Decoded c) → b.Fits → (∀ x ∈ ch.messages ++ checkpointStrings c before.state b, x ∈ S) →
      index = ch.state.index →
      (validateMinerPayouts s' b' = .ok () → tip.encode = ch.state.encode) ∧
      ((∀ x ∈ forestMessages c (ch.leaves.map (StoredLeaf.record c)) ++ ((before.after c b' tip au.diffs.sces).messages ++
          forestMessages c ((before.after c b' tip au.diffs.sces).leaves.map (StoredLeaf.record c))), x ∈ S) →
        ch.state.elements.numLeaves.toNat < 2^64 - 1 → tip.encode = ch.state.encode →
        validateMinerPayouts s' b' = .ok ()) := by
  have haccepted := checkpoint_accepted hresponse
  refine ⟨fun hS => haccepted.ne_genesis hideal.inj hgenesis hcount hS hS',?_⟩
  intro blocks b before ch hrun hext hdecoded hfits hS hindex
  rw [List.forall_mem_append] at hS hdecoded
  have hrunch := runChain_snoc.mpr ⟨before,hrun,hext⟩
  have hch := runChain_valid hideal hrunch hS.1
  have hbefore := runChain_valid hideal hrun fun x hx => hS.1 x (Chain.extend_messages hext x hx)
  have hw := runChain_writable hgenesis (fun b hb => (hdecoded.1 b hb).wholeSecond) hrun
  have hw' := runChain_writable hgenesis
    (fun b hb => (List.forall_mem_append.mpr hdecoded b hb).wholeSecond) hrunch
  rw [Chain.extend,bind_unit_eq_ok] at hext
  simp only [bind_eq_ok,pure_eq_ok] at hext
  obtain ⟨hvalid,⟨s₁,au₁⟩,happly,rfl⟩ := hext
  have hb := block_accepted hvalid
  obtain ⟨ms,out,ha⟩ := applyBlock_inv happly
  have hid : b.id c = index.id := by
    rw [hindex]
    exact (congrArg ChainIndex.id ha.index).symm
  obtain ⟨halike,hheader,haddress,hbound⟩ := haccepted.binds hideal.inj hvalid hw.whole hw.network
    (hdecoded.2 b List.mem_cons_self).wholeSecond hfits hcount hid hS.2 hS'
  obtain ⟨hnone,happly',tip₀,happly₀,hstate⟩ := AcceptedCheckpoint.replay halike hw.counted hb.childHeight htip
  have hv2txns := hbound hnone
  have hpayouts := payouts_iff hvalid halike hnone hv2txns haccepted.hasV2 haccepted.payout haddress
  rw [hpayouts]
  refine ⟨fun hsame => ?_,fun hforests hroom hencode => ?_⟩
  · rw [applyBlock_congr hheader (hnone.trans hb.transactions.symm) hv2txns hsame,
      applyBlock_target hb.childHeight b {} default (target before.state b),happly] at happly₀
    obtain ⟨rfl,-⟩ := ok_pair happly₀
    exact hstate.encode
  · have hsces : ∀ (b : Block) (s : State) (au : ApplyUpdate) (ms : MidState) (out : AppliedLeaves),
        AppliedBlock c before.state b {} s au ms out →
        ∀ tip, before.after c b tip au.diffs.sces = before.after c b tip ms.sces := fun b s au ms out ha tip =>
      Chain.after_congr (ha.diffs ▸ withLeaves_effects _ _) c before b tip
    obtain ⟨ms',out',ha'⟩ := applyBlock_inv happly₀
    rw [hsces _ _ _ _ _ ha] at hforests hS hch hroom
    rw [hsces _ _ _ _ _ ha',List.forall_mem_append,List.forall_mem_append] at hforests
    have hbid' : b'.id c = b.id c := congrArg (BlockHeader.id c) hheader
    have hbid : b.id c ∉ (chainHeaders c m blocks).map (BlockHeader.id c) := by
      have hnodup := hch.linked.nodup hideal hch.headers
      rw [chainHeaders_snoc,List.map_cons,List.nodup_cons] at hnodup
      exact hnodup.1
    obtain ⟨hhashed,hknown⟩ := Chain.after_hashed hS.1
    obtain ⟨-,hknown'⟩ := Chain.after_hashed hforests.2.1
    obtain ⟨payout,hpayout,-⟩ := hb.payout
    obtain ⟨payout',hpayout'⟩ := haccepted.payout
    obtain ⟨hledger,-⟩ := payout_ledger hideal hbefore hvalid hhashed hbid payout hb.transactions rfl rfl hpayout ha.midState
    obtain ⟨hledger',htracked'⟩ := payout_ledger hideal hbefore hvalid hhashed hbid payout' hnone hv2txns hbid' hpayout'
      ha'.midState
    have hrep' := hledger'.represents_after htracked' hbefore.leaves hideal.inj hbefore.represents hhashed.forest
      hhashed.inputs ha'.elements
    rw [← ha'.acc] at hrep'
    have htipWhole : tip.Whole := haccepted.whole.step haccepted.decoded.wholeSecond (applyBlock_timestamps happly')
    have htipNetwork : tip.network = m.network := by
      obtain ⟨_,_,ha''⟩ := applyBlock_inv happly'
      exact ha''.network.trans haccepted.network
    have hsame := State.alike_of_encode hw'.whole htipWhole (htipNetwork.trans hw'.network.symm) hencode
    have hlen := hch.represents.numLeaves
    rw [length_leafHashes,List.length_map] at hlen
    rw [hpayout,hpayout',payout_unique hideal hbefore hvalid hhashed hbid hledger hledger' rfl (by rw [← hbid']) hknown
      (by rwa [← hbid']) hch.represents hrep' (hsame.trans hstate.symm).elements hforests.1 hforests.2.2
      (hlen ▸ hroom)]

def sampleCheckpoint (extra : UInt64) : Outcome (Chain × Block × Chain × Bytes) := do
  let before ← runChain sampleCrypto (fun _ _ => default) sampleManifest []
  let b ← candidateWithNonce sampleCrypto before.state sampleKeys [] sampleTime 0
  let ch ← before.extend sampleCrypto (fun _ _ => default) b
  let sent : Block := { b with
    minerPayouts := b.minerPayouts.map fun mp => ⟨⟨mp.value.lo + extra, mp.value.hi⟩, mp.address⟩ }
  let bytes ← sent.encodeV2 sampleCrypto
  return (before, b, ch, bytes ++ before.state.encode)

/-- The strings hashed on the chain, for the checkpoint and in the accumulators after it. -/
def checkpointMessages (c : Crypto) (before : Chain) (b : Block) (ch : Chain) (s' : State) (b' : Block) (tip : State)
    (au : ApplyUpdate) : List Bytes :=
  checkpointStrings c s' b' ++ (ch.messages ++ checkpointStrings c before.state b ++
    (forestMessages c (ch.leaves.map (StoredLeaf.record c)) ++ ((before.after c b' tip au.diffs.sces).messages ++
      forestMessages c ((before.after c b' tip au.diffs.sces).leaves.map (StoredLeaf.record c)))))

def sampleTip (extra : UInt64) : Outcome ((Chain × Block × Chain × Bytes) × (State × Block) × State × ApplyUpdate) := do
  let r ← sampleCheckpoint extra
  let sent ← sendCheckpoint sampleCrypto r.2.2.1.state.index sampleManifest.network r.2.2.2
  let tip ← newDBStoreAtCheckpoint sampleCrypto sent.1 sent.2
  return (r, sent, tip)

/-- A checkpoint with a larger payout is accepted and leads to another tip state. -/
theorem checkpoint_forged : ∃ before b ch response s' b' tip au,
    runChain sampleCrypto (fun _ _ => default) sampleManifest [] = .ok before ∧
    before.extend sampleCrypto (fun _ _ => default) b = .ok ch ∧ b.Decoded sampleCrypto ∧
    sendCheckpoint sampleCrypto ch.state.index sampleManifest.network response = .ok (s', b') ∧
    newDBStoreAtCheckpoint sampleCrypto s' b' = .ok (tip, au) ∧
    IdealOn sampleCrypto.sum256 default {x | x ∈ checkpointMessages sampleCrypto before b ch s' b' tip au} ∧
    tip.encode ≠ ch.state.encode := by
  obtain ⟨⟨⟨before,b,ch,response⟩,⟨s',b'⟩,tip,au⟩,hrun,hcheck⟩ := exists_of_holds (x := sampleTip 1)
    (p := fun r => decide (
      ((checkpointMessages sampleCrypto r.1.1 r.1.2.1 r.1.2.2.1 r.2.1.1 r.2.1.2 r.2.2.1 r.2.2.2).dedup.map
        sampleCrypto.sum256).Nodup ∧
      (∀ x ∈ checkpointMessages sampleCrypto r.1.1 r.1.2.1 r.1.2.2.1 r.2.1.1 r.2.1.2 r.2.2.1 r.2.2.2,
        sampleCrypto.sum256 x ≠ default) ∧
      r.2.2.1.encode ≠ r.1.2.2.1.state.encode ∧
      r.1.1.state.qdayV1Active r.1.1.state.childHeight = false ∧
      (encodeList SiacoinOutput.encodeV1 [⟨r.1.1.state.blockReward,sampleKeys.policy.address sampleCrypto⟩]).length < 2^64))
    (by decide +kernel)
  obtain ⟨hnodup,hne,hdiffer,hv1,hpayouts⟩ := of_decide_eq_true hcheck
  simp only [sampleTip,sampleCheckpoint,bind_eq_ok,pure_eq_ok,Prod.mk.injEq] at hrun
  obtain ⟨_,⟨before',hbefore,b₀,hb,ch',hext,bytes,-,rfl⟩,⟨_,_⟩,hsend,⟨_,_⟩,htip,⟨rfl,rfl,rfl,rfl⟩,⟨rfl,rfl⟩,
    rfl,rfl⟩ := hrun
  exact ⟨before,b,ch,_,s',b',tip,au,hbefore,hext,emptyCandidate_decoded hv1 hb (by decide +kernel) hpayouts,hsend,htip,
    idealOn_of_nodup hnodup hne,hdiffer⟩

theorem checkpoint_tip_iff_sample : ∃ before b ch response s' b' tip au,
    runChain sampleCrypto (fun _ _ => default) sampleManifest [] = .ok before ∧
    before.extend sampleCrypto (fun _ _ => default) b = .ok ch ∧
    sendCheckpoint sampleCrypto ch.state.index sampleManifest.network response = .ok (s', b') ∧
    newDBStoreAtCheckpoint sampleCrypto s' b' = .ok (tip, au) ∧
    validateMinerPayouts s' b' = .ok () ∧ tip.encode = ch.state.encode := by
  obtain ⟨⟨⟨before,b,ch,response⟩,⟨s',b'⟩,tip,au⟩,hrun,hcheck⟩ := exists_of_holds (x := sampleTip 0)
    (p := fun r => decide (
      ((checkpointMessages sampleCrypto r.1.1 r.1.2.1 r.1.2.2.1 r.2.1.1 r.2.1.2 r.2.2.1 r.2.2.2).dedup.map
        sampleCrypto.sum256).Nodup ∧
      (∀ x ∈ checkpointMessages sampleCrypto r.1.1 r.1.2.1 r.1.2.2.1 r.2.1.1 r.2.1.2 r.2.2.1 r.2.2.2,
        sampleCrypto.sum256 x ≠ default) ∧
      validateMinerPayouts r.2.1.1 r.2.1.2 = .ok () ∧
      r.2.1.2.transactions.length + r.2.1.2.v2Transactions.length < 2^63 ∧
      (r.1.2.1.v2Transactions.length < 2^63 ∧ ∀ txn ∈ r.1.2.1.v2Transactions, txn.encode.length < 2^64) ∧
      r.1.1.state.qdayV1Active r.1.1.state.childHeight = false ∧
      (encodeList SiacoinOutput.encodeV1 [⟨r.1.1.state.blockReward,sampleKeys.policy.address sampleCrypto⟩]).length < 2^64))
    (by decide +kernel)
  obtain ⟨hnodup,hne,hpays,hcount,hfits,hv1,hpayouts⟩ := of_decide_eq_true hcheck
  simp only [sampleTip,sampleCheckpoint,bind_eq_ok,pure_eq_ok,Prod.mk.injEq] at hrun
  obtain ⟨_,⟨before',hbefore,b₀,hb,ch',hext,bytes,-,rfl⟩,⟨_,_⟩,hsend,⟨_,_⟩,htip,⟨rfl,rfl,rfl,rfl⟩,⟨rfl,rfl⟩,
    rfl,rfl⟩ := hrun
  have hdecoded : b.Decoded sampleCrypto := emptyCandidate_decoded hv1 hb (by decide +kernel) hpayouts
  have hiff := checkpoint_tip_iff (m := sampleManifest) (fun _ _ => default) (idealOn_of_nodup hnodup hne) rfl hsend hcount
    (fun x hx => List.mem_append_left _ hx) htip
  exact ⟨before,b,ch,_,s',b',tip,au,hbefore,hext,hsend,htip,hpays,
    (hiff.2 [] b before ch hbefore hext (List.forall_mem_singleton.mpr hdecoded) ⟨hfits.1,hfits.2⟩
      (fun x hx => List.mem_append_right _ (List.mem_append_left _ hx)) rfl).1 hpays⟩

end Tip

end QdayNode
