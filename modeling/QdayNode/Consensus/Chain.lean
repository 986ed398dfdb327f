import QdayNode.Consensus.Genesis
import QdayNode.Consensus.StoredLeaves

/-!
# Chains of valid blocks

A chain starts from the genesis block of a manifest and grows by blocks that pass
`ValidateBlock` on the state that `ApplyBlock` has left.  Beside the state it keeps
what the state only commits to: the unspent outputs as the updates report them, the
elements behind the leaves of the accumulator, and every string whose hash the
argument relies on.
-/
namespace QdayNode
open ByteString Outcome

variable {c : Crypto} {target : State → Block → Time} {m : QdayManifest} {blocks : List Block} {b : Block}
  {sces : List SiacoinElementDiff} {S : Set Bytes} {s : State}

structure Chain where
  state : State
  unspent : List Coin
  leaves : List StoredLeaf
  messages : List Bytes

/-- The strings hashed to identify the parts of a block and to look its inputs up among `leaves`. -/
def blockMessages (c : Crypto) (leaves : List StoredLeaf) (b : Block) : List Bytes :=
  (b.header c).preimage ::
    ((b.transactions.flatMap fun txn => (List.range txn.siacoinOutputs.length).map txn.siacoinOutputPreimage) ++
    (b.v2Transactions.map V2Transaction.idPreimage ++
    ((b.v2Transactions.flatMap fun txn => (List.range txn.siacoinOutputs.length).map (siacoinOutputPreimage (txn.id c))) ++
    ((List.range b.minerPayouts.length).map (minerOutputPreimage (b.id c)) ++
    (inputMessages c b.v2Transactions ++ forestMessages c (leaves.map (StoredLeaf.record c)))))))

def Chain.after (c : Crypto) (ch : Chain) (b : Block) (state : State) (sces : List SiacoinElementDiff) : Chain where
  state := state
  unspent := unspentAfter ch.unspent sces
  leaves := storedAfter ch.leaves sces ⟨ch.state.childHeight, b.id c⟩
  messages := ch.messages ++ (blockMessages c ch.leaves b ++
    (createdLeaves sces ⟨ch.state.childHeight, b.id c⟩).map fun l => l.element.preimage)

def QdayManifest.chain (c : Crypto) (m : QdayManifest) : Outcome Chain := do
  let root ← m.network.genesisState
  let (s, au) ← m.start c
  return Chain.after c ⟨root, [], [], []⟩ m.genesis s au.diffs.sces

/-- One more valid block; `target` supplies the timestamp of the ancestor that the header refers to. -/
def Chain.extend (c : Crypto) (target : State → Block → Time) (ch : Chain) (b : Block) : Outcome Chain := do
  validateBlock c ch.state b {}
  let (s, au) ← applyBlock c ch.state b {} (target ch.state b)
  return ch.after c b s au.diffs.sces

def runChain (c : Crypto) (target : State → Block → Time) (m : QdayManifest) (blocks : List Block) : Outcome Chain := do
  let ch ← m.chain c
  blocks.foldlM (Chain.extend c target) ch

def QdayManifest.premineCoin (c : Crypto) (m : QdayManifest) : Coin :=
  ⟨m.genesisTransaction.siacoinOutputID c 0, ⟨m.network.qday.premineAmount, m.premine⟩, 0⟩

/-- Every output created on a chain, with its height of creation. -/
def createdCoins (c : Crypto) (m : QdayManifest) (blocks : List Block) : List Coin :=
  m.premineCoin c :: (blocks.mapIdx fun i b => b.coins c (UInt64.ofNat (i + 1)) m.network.maturityDelay).flatten

def chainHeaders (c : Crypto) (m : QdayManifest) (blocks : List Block) : List BlockHeader :=
  (blocks.map (Block.header c)).reverse ++ [m.genesis.header c]

@[simp] theorem createdCoins_snoc (c : Crypto) (m : QdayManifest) (blocks : List Block) (b : Block) :
    createdCoins c m (blocks ++ [b]) =
      createdCoins c m blocks ++ b.coins c (UInt64.ofNat (blocks.length + 1)) m.network.maturityDelay := by
  simp [createdCoins,List.mapIdx_append]

@[simp] theorem chainHeaders_snoc (c : Crypto) (m : QdayManifest) (blocks : List Block) (b : Block) :
    chainHeaders c m (blocks ++ [b]) = b.header c :: chainHeaders c m blocks := by
  simp [chainHeaders]

section Run

variable {ch ch' : Chain}

theorem Chain.after_congr {sces' : List SiacoinElementDiff}
    (h : sces.map SiacoinElementDiff.effect = sces'.map SiacoinElementDiff.effect) (c : Crypto) (ch : Chain) (b : Block) (s : State) :
    ch.after c b s sces = ch.after c b s sces' := by
  simp only [Chain.after,unspentAfter_congr h,storedAfter_congr h,createdLeaves_congr h]

theorem Chain.extend_inv (h : ch.extend c target b = .ok ch') :
    validateBlock c ch.state b {} = .ok () ∧ ∃ s au ms out,
      AppliedBlock c ch.state b {} s au ms out ∧ ch' = ch.after c b s ms.sces := by
  rw [extend,bind_unit_eq_ok] at h
  simp only [bind_eq_ok,pure_eq_ok] at h
  obtain ⟨hvalid,⟨s,au⟩,happly,rfl⟩ := h
  obtain ⟨ms,out,ha⟩ := applyBlock_inv happly
  exact ⟨hvalid,s,au,ms,out,ha,Chain.after_congr (ha.diffs ▸ withLeaves_effects _ _) c ch b s⟩

theorem runChain_snoc : runChain c target m (blocks ++ [b]) = .ok ch' ↔
    ∃ ch, runChain c target m blocks = .ok ch ∧ ch.extend c target b = .ok ch' := by
  simp only [runChain,List.foldlM_append,List.foldlM_cons,List.foldlM_nil,bind_pure,bind_eq_ok]
  constructor
  · rintro ⟨ch₀,h₀,ch,hrun,hext⟩
    exact ⟨ch,⟨ch₀,h₀,hrun⟩,hext⟩
  · rintro ⟨ch,⟨ch₀,h₀,hrun⟩,hext⟩
    exact ⟨ch₀,h₀,ch,hrun,hext⟩

theorem Chain.extend_messages (h : ch.extend c target b = .ok ch') : ∀ x ∈ ch.messages, x ∈ ch'.messages := by
  obtain ⟨-,s,au,ms,out,-,rfl⟩ := extend_inv h
  intro x hx
  exact List.mem_append_left _ hx

/-- What holds of the genesis chain and is kept by every further block holds of every chain; all
strings hashed on the way are among those of the final chain. -/
theorem runChain_induct {P : List Block → Chain → Prop}
    (hgenesis : ∀ ch, m.chain c = .ok ch → (∀ x ∈ ch.messages, x ∈ S) → P [] ch)
    (hstep : ∀ blocks b ch ch', runChain c target m blocks = .ok ch → P blocks ch → ch.extend c target b = .ok ch' →
      (∀ x ∈ ch'.messages, x ∈ S) → P (blocks ++ [b]) ch')
    (hrun : runChain c target m blocks = .ok ch) (hS : ∀ x ∈ ch.messages, x ∈ S) : P blocks ch := by
  induction blocks using List.reverseRecOn generalizing ch with
  | nil =>
    obtain ⟨ch₀,h₀,hnil⟩ := bind_eq_ok.mp hrun
    obtain rfl : ch₀ = ch := Except.ok.inj hnil
    exact hgenesis ch₀ h₀ hS
  | append_singleton blocks b ih =>
    obtain ⟨before,hbefore,hext⟩ := runChain_snoc.mp hrun
    have hsub := Chain.extend_messages hext
    exact hstep blocks b before ch hbefore (ih hbefore fun x hx => hS x (hsub x hx)) hext hS

theorem runChain_split {pre post : List Block} (hrun : runChain c target m (pre ++ b :: post) = .ok ch) :
    ∃ before after, runChain c target m pre = .ok before ∧ before.extend c target b = .ok after ∧
      ∀ x ∈ after.messages, x ∈ ch.messages := by
  induction post using List.reverseRecOn generalizing ch with
  | nil =>
    obtain ⟨before,hbefore,hext⟩ := runChain_snoc.mp hrun
    exact ⟨before,ch,hbefore,hext,fun x hx => hx⟩
  | append_singleton post b' ih =>
    rw [← List.cons_append,← List.append_assoc] at hrun
    obtain ⟨mid,hmid,hext⟩ := runChain_snoc.mp hrun
    obtain ⟨before,after,hbefore,hafter,hsub⟩ := ih hmid
    exact ⟨before,after,hbefore,hafter,fun x hx => Chain.extend_messages hext x (hsub x hx)⟩

end Run

section Invariant

/-- What a chain of valid blocks keeps, when `S` holds the strings hashed on it. -/
structure Chain.Valid (c : Crypto) (m : QdayManifest) (S : Set Bytes) (blocks : List Block) (ch : Chain) : Prop where
  network : ch.state.network = m.network
  height : ch.state.index.height = UInt64.ofNat blocks.length
  short : blocks.length < 2^64
  linked : Linked c (chainHeaders c m blocks)
  tip : (chainHeaders c m blocks).head?.map (BlockHeader.id c) = some ch.state.index.id
  headers : ∀ h ∈ chainHeaders c m blocks, h.preimage ∈ S
  ledger : Ledger c S m.genesisTransaction (createdCoins c m blocks) ch.unspent
    (inputIDs (blocks.flatMap Block.v2Transactions)) ((chainHeaders c m blocks).map (BlockHeader.id c))
  represents : Represents c ch.state.elements (leafHashes c (ch.leaves.map (StoredLeaf.record c)))
  leaves : LeafLedger S (createdCoins c m blocks) ch.unspent ch.leaves
  indices : ∀ l ∈ ch.leaves, ∀ ci, l.element = .index ci → ci.id ∈ (chainHeaders c m blocks).map (BlockHeader.id c)

theorem Linked.cons {l : List BlockHeader} {h : BlockHeader} (hl : Linked c l)
    (htip : l.head?.map (BlockHeader.id c) = some h.parentID) : Linked c (h :: l) := by
  cases l with
  | nil => cases htip
  | cons h' rest => exact ⟨(Option.some.inj htip).symm,hl⟩

/-- The strings hashed for a block are in `S`. -/
structure Hashed (c : Crypto) (S : Set Bytes) (leaves : List StoredLeaf) (b : Block) : Prop where
  header : (b.header c).preimage ∈ S
  outputs : ∀ txn ∈ b.transactions, ∀ i < txn.siacoinOutputs.length, txn.siacoinOutputPreimage i ∈ S
  identified : ∀ txn ∈ b.v2Transactions, BlockLedger.Identified c S txn
  payouts : ∀ i < b.minerPayouts.length, minerOutputPreimage (b.id c) i ∈ S
  inputs : ∀ x ∈ inputMessages c b.v2Transactions, x ∈ S
  forest : ∀ x ∈ forestMessages c (leaves.map (StoredLeaf.record c)), x ∈ S

theorem hashed_of_messages {leaves : List StoredLeaf} (h : ∀ x ∈ blockMessages c leaves b, x ∈ S) :
    Hashed c S leaves b := by
  simp only [blockMessages,List.mem_cons,List.mem_append,or_imp,forall_and,forall_eq,List.mem_flatMap,
    List.mem_map,List.mem_range,forall_exists_index,and_imp] at h
  obtain ⟨hheader,houtputs,hids,hv2outputs,hpayouts,hinputs,hforest⟩ := h
  refine ⟨hheader,?_,?_,?_,hinputs,hforest⟩
  · intro txn htxn i hi
    exact houtputs _ txn htxn i hi rfl
  · intro txn htxn
    exact ⟨hids _ txn htxn rfl,fun i hi => hv2outputs _ txn htxn i hi rfl⟩
  · intro i hi
    exact hpayouts _ i hi rfl

theorem Chain.after_hashed {ch : Chain}
    (h : ∀ x ∈ (ch.after c b s sces).messages, x ∈ S) :
    Hashed c S ch.leaves b ∧ ∀ l ∈ createdLeaves sces ⟨ch.state.childHeight, b.id c⟩, l.element.preimage ∈ S := by
  refine ⟨hashed_of_messages fun x hx => h x ?_,fun l hl => h _ ?_⟩
  · exact List.mem_append_right _ (List.mem_append_left _ hx)
  · exact List.mem_append_right _ (List.mem_append_right _ (List.mem_map_of_mem hl))

theorem Chain.Valid.parentID_ne {ch : Chain} (hideal : IdealOn c.sum256 default S)
    (h : Chain.Valid c m S blocks ch) : ch.state.index.id ≠ default := by
  obtain ⟨x,hx,hid⟩ := Option.map_eq_some_iff.mp h.tip
  rw [← hid]
  exact hideal.ne_sentinel _ (h.headers x (List.mem_of_mem_head? hx))

theorem childHeight_of_length {n : ℕ} (hheight : s.index.height = UInt64.ofNat n) (hshort : n < 2^64) :
    s.childHeight = UInt64.ofNat (n + 1) ∧ (¬ s.childHeight < Network.v2Height → n + 1 < 2^64) := by
  have heq : s.childHeight = UInt64.ofNat (n + 1) := by
    rw [State.childHeight,hheight,UInt64.ofNat_add]
    rfl
  refine ⟨heq,fun hnot => ?_⟩
  by_contra hge
  obtain hlast : n + 1 = 2^64 := by omega
  rw [heq,hlast] at hnot
  exact hnot (by decide)

theorem Chain.Valid.childHeight {ch : Chain} (h : Chain.Valid c m S blocks ch) :
    ch.state.childHeight = UInt64.ofNat (blocks.length + 1) ∧
      (¬ ch.state.childHeight < Network.v2Height → blocks.length + 1 < 2^64) :=
  childHeight_of_length h.height h.short

/-- The chain index, the ledger and the leaves after a block, from the records of the block. -/
theorem Chain.Valid.after {ch : Chain} {au : ApplyUpdate} {ms : MidState}
    {out : AppliedLeaves} (hideal : IdealOn c.sum256 default S) (h : Chain.Valid c m S blocks ch)
    (hvalid : validateBlock c ch.state b {} = .ok ()) (ha : AppliedBlock c ch.state b {} s au ms out)
    (hS : ∀ x ∈ (ch.after c b s ms.sces).messages, x ∈ S) :
    Chain.Valid c m S (blocks ++ [b]) (ch.after c b s ms.sces) ∧
      LedgerStep c S m.genesisTransaction ch.state b (createdCoins c m blocks) ch.unspent
        (inputIDs (blocks.flatMap Block.v2Transactions)) ((chainHeaders c m blocks).map (BlockHeader.id c)) ms := by
  obtain ⟨hhashed,hcreated⟩ := Chain.after_hashed hS
  have hb := block_accepted hvalid
  have hmember : ∀ txn ∈ b.v2Transactions, ∀ sci ∈ txn.siacoinInputs,
      sci.parent.stateElement.leafIndex ≠ unassignedLeafIndex →
      ch.state.elements.containsUnspentSiacoinElement c sci.parent = true → sci.parent.coin ∈ ch.unspent := by
    intro txn htxn sci hsci _ hcontains
    refine h.leaves.unspent_of_contains hideal.inj h.represents hhashed.forest (fun x hx => ?_) hcontains
    exact hhashed.inputs x (List.mem_flatMap.mpr ⟨txn,htxn,List.mem_flatMap.mpr ⟨sci,hsci,hx⟩⟩)
  have hlinked : Linked c (chainHeaders c m (blocks ++ [b])) := by
    rw [chainHeaders_snoc]
    refine h.linked.cons ?_
    rw [h.tip,← hb.parentID]
    rfl
  have hheaders : ∀ x ∈ chainHeaders c m (blocks ++ [b]), x.preimage ∈ S := by
    rw [chainHeaders_snoc,List.forall_mem_cons]
    exact ⟨hhashed.header,h.headers⟩
  have hbid : b.id c ∉ (chainHeaders c m blocks).map (BlockHeader.id c) := by
    have hnodup := hlinked.nodup hideal hheaders
    rw [chainHeaders_snoc,List.map_cons,List.nodup_cons] at hnodup
    exact hnodup.1
  obtain ⟨payout,hpayout,-⟩ := hb.payout
  obtain ⟨ms₁,hms₁,hstep⟩ := hb.ledgerStep hideal.inj h.ledger hhashed.identified hmember hbid
    (hhashed.payouts 0 (by rw [hpayout]; exact Nat.one_pos))
  obtain rfl : ms = ms₁ := Except.ok.inj (ha.midState.symm.trans hms₁)
  obtain ⟨ms₂,hms₂,htracked,-⟩ := hb.tracked
  obtain rfl : ms = ms₂ := Except.ok.inj (ha.midState.symm.trans hms₂)
  obtain ⟨hheight,hshort⟩ := h.childHeight
  have hindex : s.index = ⟨ch.state.childHeight,b.id c⟩ := by
    rw [ha.index,hb.parentID,if_neg (h.parentID_ne hideal)]
  have hcoins : createdCoins c m (blocks ++ [b]) =
      createdCoins c m blocks ++ b.coins c ch.state.childHeight ch.state.network.maturityDelay := by
    rw [createdCoins_snoc,hheight,h.network]
  refine ⟨⟨ha.network.trans h.network,?_,?_,hlinked,?_,hheaders,?_,?_,?_,?_⟩,hstep⟩
  · rw [List.length_append,List.length_singleton,← hheight]
    exact congrArg ChainIndex.height hindex
  · rw [List.length_append,List.length_singleton]
    exact hshort hb.childHeight
  · rw [chainHeaders_snoc]
    exact congrArg some (congrArg ChainIndex.id hindex).symm
  · have hinputs : inputIDs ((blocks ++ [b]).flatMap Block.v2Transactions) =
        inputIDs (blocks.flatMap Block.v2Transactions) ++ inputIDs b.v2Transactions := by
      simp [inputIDs]
    rw [hcoins,hinputs,chainHeaders_snoc]
    exact hstep.ledger
  · have hrep := hstep.records.represents_after htracked h.leaves hideal.inj h.represents hhashed.forest hhashed.inputs
      ha.elements
    rw [← ha.acc] at hrep
    exact hrep
  · rw [hcoins]
    exact h.leaves.after hstep.records hcreated
  · rw [chainHeaders_snoc,List.map_cons]
    intro l hl ci hci
    obtain hnew | ⟨l₀,hl₀,hci₀⟩ := storedAfter_index hl hci
    · exact List.mem_cons.mpr (.inl (congrArg ChainIndex.id hnew))
    · exact List.mem_cons_of_mem _ (h.indices l₀ hl₀ ci hci₀)

section GenesisBlock

theorem applyArbitraryData_eq (ms : MidState) (arbs : List Bytes) :
    ∃ subsidy management, arbs.foldl MidState.applyArbitraryData ms =
      { ms with foundationSubsidy := subsidy, foundationManagement := management } := by
  induction arbs generalizing ms with
  | nil => exact ⟨_,_,rfl⟩
  | cons arb arbs ih =>
    obtain ⟨subsidy,management,heq⟩ := ih (ms.applyArbitraryData arb)
    rw [List.foldl_cons,heq]
    unfold MidState.applyArbitraryData
    split_ifs
    · exact ⟨_,_,rfl⟩
    · exact ⟨_,_,rfl⟩

theorem genesisState_frame {n : Network} {root : State} (hroot : n.genesisState = .ok root) :
    root.network = n ∧ root.childHeight = 0 ∧ root.elements = ⟨fun _ => default, 0⟩ ∧ root.qdayHeight = 0 := by
  simp only [Network.genesisState,bind_eq_ok,pure_eq_ok] at hroot
  obtain ⟨_,-,_,-,rfl⟩ := hroot
  have hwrap : (0 - 1 + 1 : UInt64) = 0 := by decide
  exact ⟨rfl,hwrap,rfl,rfl⟩

theorem genesis_records {root : State} (hheight : root.childHeight = 0) :
    ∃ ms, (newMidState root).applyBlock c m.genesis { transactions := [{}] } = .ok ms ∧
      BlockLedger root [] [] [] [m.premineCoin c] ms ∧ Tracked c [] ms := by
  obtain ⟨ms,hcreate,-,-,hblock⟩ := (BlockLedger.init root [] []).create (m.premineCoin c) (List.not_mem_nil) rfl
  obtain ⟨ms₁,hcreate₁,htracked,-⟩ := (Tracked.init c root).create 0 (m.genesisTransaction.siacoinOutputID c 0)
    ⟨m.network.qday.premineAmount,m.premine⟩
  obtain rfl : ms = ms₁ := Except.ok.inj (hcreate.symm.trans hcreate₁)
  obtain ⟨subsidy,management,hdata⟩ := applyArbitraryData_eq ms m.arbitraryData
  refine ⟨{ ms with foundationSubsidy := subsidy, foundationManagement := management },?_,?_,?_⟩
  · have hbase : (newMidState root).base.childHeight = 0 := hheight
    have houtput : (newMidState root).createSiacoinElement (m.genesisTransaction.siacoinOutputID c 0)
        ⟨m.network.qday.premineAmount,m.premine⟩ = .ok ms := by
      rw [MidState.createSiacoinElement,hbase]
      exact hcreate
    have hlate : ¬ ((0 : UInt64) ≥ Network.v2Height) := by decide
    simp only [MidState.applyBlock,crashIf,hbase,hlate,false_and,if_false,ok_bind,
      QdayManifest.genesis,MidState.applyTransactions,MidState.applyTransaction,Block.v2Transactions]
    simp only [QdayManifest.genesisTransaction] at houtput ⊢
    simp only [List.foldlM_nil,foldIdx,houtput,ok_bind,pure_bind,hdata,bind_pure]
  · exact ⟨hblock.base,hblock.keyed,hblock.short,hblock.funded,hblock.consumed_nodup,hblock.spends,hblock.spent,
      hblock.old,hblock.new,hblock.listed,hblock.presented,hblock.source,hblock.coins_nodup⟩
  · exact ⟨htracked.keyed,htracked.coinsOnly,htracked.assigned⟩

theorem genesis_ledger : Ledger c S m.genesisTransaction [] [] [] [] := by
  refine ⟨List.nodup_nil,List.nodup_nil,List.nodup_nil,?_,?_,?_,?_⟩
  · intro k hk
    cases hk
  · intro k hk
    cases hk
  · intro id hid
    cases hid
  · intro k hk
    cases hk

theorem genesis_valid {ch : Chain} (hideal : IdealOn c.sum256 default S) (hchain : m.chain c = .ok ch)
    (hS : ∀ x ∈ ch.messages, x ∈ S) : Chain.Valid c m S [] ch := by
  simp only [QdayManifest.chain,bind_eq_ok,pure_eq_ok] at hchain
  obtain ⟨root,hroot,⟨s,au⟩,hstart,rfl⟩ := hchain
  rw [QdayManifest.start,hroot,ok_bind] at hstart
  obtain ⟨ms,out,ha⟩ := applyBlock_inv hstart
  obtain ⟨hnetwork,hheight,helements,-⟩ := genesisState_frame hroot
  obtain ⟨ms₁,hms₁,hblock,htracked⟩ := genesis_records (c := c) (m := m) hheight
  obtain rfl : ms = ms₁ := Except.ok.inj (ha.midState.symm.trans hms₁)
  have heffects : au.diffs.sces.map SiacoinElementDiff.effect = ms.sces.map SiacoinElementDiff.effect :=
    ha.diffs ▸ withLeaves_effects _ _
  rw [Chain.after_congr heffects] at hS ⊢
  obtain ⟨hhashed,hcreated⟩ := Chain.after_hashed hS
  have hempty : LeafLedger S [] [] [] := by
    refine ⟨?_,?_,?_,List.Pairwise.nil⟩
    · intro l hl
      cases hl
    · intro l hl
      cases hl
    · intro l hl
      cases hl
  have hrep : Represents c root.elements (leafHashes c (([] : List StoredLeaf).map (StoredLeaf.record c))) := by
    rw [helements]
    refine ⟨rfl,fun k hk => ?_⟩
    rw [List.map_nil,length_leafHashes,List.length_nil,Nat.zero_div] at hk
    cases hk
  have hindex : s.index = ⟨0,m.genesis.id c⟩ := ha.index
  refine ⟨ha.network.trans hnetwork,congrArg ChainIndex.height hindex,Nat.two_pow_pos 64,rfl,
    congrArg some (congrArg ChainIndex.id hindex).symm,?_,?_,?_,?_,?_⟩
  · intro x hx
    rw [List.mem_singleton.mp hx]
    exact hhashed.header
  · refine Ledger.after genesis_ledger hblock fun k hk => ?_
    rw [List.mem_singleton.mp hk]
    exact .genesis (hhashed.outputs m.genesisTransaction (List.mem_singleton.mpr rfl) 0 Nat.one_pos)
  · have hafter := hblock.represents_after htracked hempty hideal.inj hrep hhashed.forest hhashed.inputs ha.elements
    rw [← ha.acc] at hafter
    exact hafter
  · exact hempty.after hblock hcreated
  · intro l hl ci hci
    obtain hnew | ⟨l₀,hl₀,-⟩ := storedAfter_index hl hci
    · exact List.mem_singleton.mpr (congrArg ChainIndex.id hnew)
    · cases hl₀

end GenesisBlock

variable {ch ch' : Chain}

theorem Chain.Valid.extend (hideal : IdealOn c.sum256 default S) (h : Chain.Valid c m S blocks ch)
    (hext : ch.extend c target b = .ok ch') (hS : ∀ x ∈ ch'.messages, x ∈ S) :
    Chain.Valid c m S (blocks ++ [b]) ch' := by
  obtain ⟨hvalid,s,au,ms,out,ha,rfl⟩ := Chain.extend_inv hext
  exact (h.after hideal hvalid ha hS).1

theorem runChain_valid (hideal : IdealOn c.sum256 default S) (hrun : runChain c target m blocks = .ok ch)
    (hS : ∀ x ∈ ch.messages, x ∈ S) : Chain.Valid c m S blocks ch := by
  refine runChain_induct (P := Chain.Valid c m S) (fun ch hchain hS => genesis_valid hideal hchain hS) ?_ hrun hS
  intro blocks b ch ch' _ h hext hS
  exact h.extend hideal hext hS

end Invariant

section Samples

def sampleSpend : SatisfiedPolicy := ⟨sampleKeys.policy, [default], List.replicate 246 default⟩

def sampleEnvelope : Bytes := (QdayEnvelope.mk qdayTransfer 0 [] default).encode

def samplePremine : SiacoinElement where
  id := (sampleManifest.premineCoin sampleCrypto).id
  stateElement := ⟨0, [sampleCrypto.sum256
    (StoredLeaf.record sampleCrypto ⟨.index ⟨0, sampleManifest.genesis.id sampleCrypto⟩, false⟩ |>.preimage 1)]⟩
  siacoinOutput := (sampleManifest.premineCoin sampleCrypto).output
  maturityHeight := 0

def sampleTransfer : V2Transaction where
  siacoinInputs := [⟨samplePremine, sampleSpend⟩]
  siacoinOutputs := [⟨⟨100, 0⟩, sampleManifest.premine⟩]
  minerFee := ⟨5, 0⟩
  arbitraryData := sampleEnvelope

def sampleEphemeral (proof : List Hash256) : SiacoinElement where
  id := siacoinOutputID sampleCrypto (sampleTransfer.id sampleCrypto) 0
  stateElement := ⟨unassignedLeafIndex, proof⟩
  siacoinOutput := ⟨⟨100, 0⟩, sampleManifest.premine⟩
  maturityHeight := 1

def sampleChild (proof : List Hash256) : V2Transaction where
  siacoinInputs := [⟨sampleEphemeral proof, sampleSpend⟩]
  siacoinOutputs := [⟨⟨90, 0⟩, sampleManifest.premine⟩]
  arbitraryData := sampleEnvelope

def sampleBlock (proof : List Hash256) : Outcome Block := do
  let ch ← sampleManifest.chain sampleCrypto
  candidateWithNonce sampleCrypto ch.state sampleKeys [sampleTransfer, sampleChild proof] sampleTime 0

def sampleRun (proof : List Hash256) : Outcome (Block × Chain) := do
  let b ← sampleBlock proof
  let ch ← runChain sampleCrypto (fun _ _ => default) sampleManifest [b]
  return (b, ch)

end Samples

end QdayNode
