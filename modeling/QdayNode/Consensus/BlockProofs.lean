import QdayNode.Consensus.Reported
import QdayNode.Consensus.StateCodec

/-!
# Proofs across a block

What one valid block does to the proofs that others keep: those of older leaves are
carried over the block and back.  The report of the block gives the new leaves their
positions; their proofs are right unless a transaction of the block presented the output
with a proof of its own.
-/
namespace QdayNode
open ByteString MerkleForest Outcome

def Chain.hashes (c : Crypto) (ch : Chain) : List Hash256 := leafHashes c (ch.leaves.map (StoredLeaf.record c))

def Block.createdIDs (c : Crypto) (b : Block) : List SiacoinOutputID := (b.coins c 0 0).map Coin.id

theorem Block.map_id_coins (c : Crypto) (b : Block) (height maturityDelay : UInt64) :
    (b.coins c height maturityDelay).map Coin.id = b.createdIDs c := by
  simp only [Block.createdIDs,Block.coins,coinsOf,V2Transaction.coins,List.map_append,List.map_flatMap]
  congr 1
  · refine List.flatMap_congr fun txn _ => List.ext_getElem? fun i => ?_
    simp only [List.getElem?_map,List.getElem?_mapIdx,Option.map_map]
    rfl
  · refine List.ext_getElem? fun i => ?_
    simp only [List.getElem?_map,List.getElem?_mapIdx,Option.map_map]
    rfl

section Carried

variable {c : Crypto} {m : QdayManifest} {S : Set Bytes} {target : State → Block → Time} {blocks : List Block} {ch ch' : Chain}
  {b : Block} {t : Time} {s : State} {au : ApplyUpdate} {e : StateElement}

theorem Chain.length_hashes : (ch.hashes c).length = ch.leaves.length := by
  rw [Chain.hashes,length_leafHashes,List.length_map]

theorem Chain.Valid.numLeaves (h : Chain.Valid c m S blocks ch) : ch.state.elements.numLeaves.toNat = ch.leaves.length := by
  have hnum := h.represents.numLeaves
  rwa [length_leafHashes,List.length_map] at hnum

/-- What is known about a block that extends a valid chain. -/
structure BlockStep (c : Crypto) (m : QdayManifest) (S : Set Bytes) (blocks : List Block) (ch : Chain) (b : Block) (ch' : Chain)
    (au : ApplyUpdate) (ms : MidState) (out : AppliedLeaves) : Prop where
  before : Chain.Valid c m S blocks ch
  after : Chain.Valid c m S (blocks ++ [b]) ch'
  accepted : BlockAccepted c ch.state b {}
  block : AppliedBlock c ch.state b {} ch'.state au ms out
  records : BlockLedger ch.state (createdCoins c m blocks) ch.unspent b.v2Transactions
    (b.coins c ch.state.childHeight ch.state.network.maturityDelay) ms
  applied : Applied c b ch.leaves ch'.leaves ch.state.elements ch'.state.elements ms au out
  leaves : ch'.leaves = storedAfter ch.leaves ms.sces ⟨ch.state.childHeight, b.id c⟩
  forest : ∀ x ∈ forestMessages c (ch.leaves.map (StoredLeaf.record c)), x ∈ S
  inputs : ∀ x ∈ inputMessages c b.v2Transactions, x ∈ S
  known : ∀ l ∈ createdLeaves ms.sces ⟨ch.state.childHeight, b.id c⟩, l.element.preimage ∈ S

theorem Chain.Valid.blockStep (hideal : IdealOn c.sum256 default S) (h : Chain.Valid c m S blocks ch)
    (hext : ch.extend c target b = .ok ch') (hS : ∀ x ∈ ch'.messages, x ∈ S) (happly : applyBlock c ch.state b {} t = .ok (s, au)) :
    s = ch'.state ∧ ∃ ms out, BlockStep c m S blocks ch b ch' au ms out := by
  obtain ⟨hvalid,-⟩ := Chain.extend_inv hext
  have haccepted := block_accepted hvalid
  rw [Chain.extend,bind_unit_eq_ok] at hext
  simp only [bind_eq_ok,pure_eq_ok] at hext
  obtain ⟨-,⟨s',au'⟩,happly',rfl⟩ := hext
  rw [applyBlock_target haccepted.childHeight b {} t (target ch.state b),happly'] at happly
  obtain ⟨rfl,rfl⟩ := ok_pair happly
  obtain ⟨ms,out,ha⟩ := applyBlock_inv happly'
  rw [Chain.after_congr (ha.diffs ▸ withLeaves_effects _ _) c ch b s'] at hS ⊢
  obtain ⟨hafter,hstep⟩ := h.after hideal hvalid ha hS
  obtain ⟨hhashed,hknown⟩ := Chain.after_hashed hS
  exact ⟨rfl,ms,out,h,hafter,haccepted,ha,hstep.records,h.applied hideal hvalid ha hS,rfl,hhashed.forest,hhashed.inputs,
    hknown⟩

namespace BlockStep

variable {ms : MidState} {out : AppliedLeaves} (hstep : BlockStep c m S blocks ch b ch' au ms out)
include hstep

theorem effects : au.diffs.sces.map SiacoinElementDiff.effect = ms.sces.map SiacoinElementDiff.effect :=
  hstep.applied.diffs ▸ withLeaves_effects _ _

theorem room (hroom : ch'.leaves.length < 2^64 - 1) :
    ch.leaves.length + (addedLeaves ((ms.diffs (b.id c)).appliedLeaves c)).length < 2^64 := by
  have hlength := congrArg List.length hstep.applied.hashes
  rw [length_leafHashes,List.length_map,List.length_take,length_leavesAfter,length_leafHashes,List.length_map] at hlength
  omega

theorem length_le : ch.leaves.length ≤ ch'.leaves.length := by
  have hlength := congrArg List.length hstep.applied.hashes
  rw [length_leafHashes,List.length_map,List.length_take,length_leavesAfter,length_leafHashes,List.length_map] at hlength
  have hlt := hstep.before.represents.length_lt
  rw [length_leafHashes,List.length_map] at hlt
  omega

theorem forward (hroom : ch'.leaves.length < 2^64 - 1) (hassigned : e.leafIndex ≠ unassignedLeafIndex)
    (hproof : ValidProof c (ch.hashes c) e) : ∃ e', au.updateElementProof c e = .ok e' ∧ ValidProof c (ch'.hashes c) e' := by
  have hcap := hstep.room hroom
  have happlied := appliedTo_of_ok hstep.applied.before hstep.applied.distinct hstep.applied.valid
    (by rw [length_leafHashes,List.length_map]; exact hcap) hstep.applied.applied
  obtain ⟨k,hin,hpath⟩ := hproof
  have hupdate := updateElementProof_of_ok hstep.applied.before hstep.applied.distinct hstep.applied.valid hstep.applied.applied hin
    hpath hassigned
  rw [← hstep.block.eau] at hupdate
  refine ⟨_,hupdate,?_⟩
  have hhashes := hstep.applied.hashes_eq hcap
  rw [Chain.hashes,hhashes]
  refine validPath_iff.mpr ⟨?_,?_⟩
  · rw [length_leavesAfter]
    exact Nat.lt_add_right _ hin.lt
  · rw [length_leavesAfter,hstep.block.eau]
    exact happlied.growth k _ hin

theorem forward_new (hassigned : e.leafIndex ≠ unassignedLeafIndex) (hnew : ch.leaves.length ≤ e.leafIndex.toNat) :
    au.updateElementProof c e = .ok e := by
  have hold : au.eau.oldNumLeaves = ch.state.elements.numLeaves := by
    rw [hstep.block.eau,applyBlock_eq_of_ok hstep.before.represents hstep.applied.distinct hstep.applied.valid hstep.block.elements]
    rfl
  have hge : e.leafIndex ≥ au.eau.oldNumLeaves := by
    rw [ge_iff_le,UInt64.le_iff_toNat_le,hold,hstep.before.numLeaves]
    exact hnew
  rw [ApplyUpdate.updateElementProof,ElementApplyUpdate.updateElementProof,crashIf,if_neg hassigned,if_pos hge]
  rfl

theorem validUpdates (hinj : Set.InjOn c.sum256 S) : ValidUpdates c (leafFn (ch.hashes c)) (leafFn (ch.hashes c)) (ch.hashes c).length
    (updatedLeaves (siacoinLeaves c (fun _ => false) ms.sces)) := by
  have hrep := hstep.before.represents
  rw [← hstep.records.base] at hrep
  exact validUpdates_self (hstep.applied.tracked.distinct hrep hinj hstep.forest hstep.inputs _)
    (hstep.applied.tracked.validProof hrep hinj hstep.forest hstep.inputs _)
    (hstep.applied.tracked.stored_hash hrep hinj hstep.forest hstep.inputs)

theorem reverts (hinj : Set.InjOn c.sum256 S) (hroom : ch.leaves.length ≤ 2^63) : ∃ ru, revertBlock c ch.state b {} = .ok ru :=
  revertBlock_returns hstep.applied.tracked hstep.block.midState hstep.accepted.parentID
    ((hstep.validUpdates hinj).updateLeaves (by rwa [Chain.length_hashes]))

theorem leafFn_kept {x : ℕ} (hx : x < (ch.hashes c).length)
    (hno : ∀ l ∈ updatedLeaves (siacoinLeaves c (fun _ => false) ms.sces), l.leafIndex ≠ x) :
    leafFn (ch'.hashes c) x = leafFn (ch.hashes c) x := by
  have hcut : leafFn (ch'.hashes c) x = leafFn (leavesAfter c (ch.hashes c) (updatedLeaves ((ms.diffs (b.id c)).appliedLeaves c))
      (addedLeaves ((ms.diffs (b.id c)).appliedLeaves c))) x := by
    have hlt := hstep.before.represents.length_lt
    have hsmall : (ch.hashes c).length < 2^64 := hlt
    rw [Chain.hashes,hstep.applied.hashes,leafFn,List.getD_eq_getElem?_getD,List.getElem?_take_of_lt (by omega),leafFn,
      List.getD_eq_getElem?_getD]
    rfl
  rw [hcut,hstep.applied.tracked.updatedLeaves_applied]
  exact leafFn_leavesAfter_kept c (ch.hashes c) _ _ ms.sces _ hx hno

theorem back (hinj : Set.InjOn c.sum256 S) {ru : RevertUpdate} (hru : revertBlock c ch.state b {} = .ok ru)
    (hassigned : e.leafIndex ≠ unassignedLeafIndex) (hold : e.leafIndex.toNat < ch.leaves.length)
    (hproof : ValidProof c (ch'.hashes c) e) : ∃ e', ru.updateElementProof c e = .ok e' ∧ ValidProof c (ch.hashes c) e' := by
  obtain ⟨rev,hrev,heru⟩ := revertBlock_inv hstep.applied.tracked hstep.block.midState hru
  rw [← Chain.length_hashes (c := c)] at hold
  obtain ⟨k,hin⟩ := exists_inTree hold
  have hle : (ch.hashes c).length ≤ (ch'.hashes c).length := by
    rw [Chain.length_hashes,Chain.length_hashes]
    exact hstep.length_le
  obtain ⟨ext,hpath⟩ := hproof.split hin hle
  have hkept : ∀ x < (ch.hashes c).length, (∀ l ∈ updatedLeaves (siacoinLeaves c (fun _ => false) ms.sces), l.leafIndex ≠ x) →
      leafFn (ch'.hashes c) x = leafFn (ch.hashes c) x := fun x hx hno => hstep.leafFn_kept hx hno
  have hupdate := revertElementProof_of_ok hstep.before.represents (hstep.validUpdates hinj) hrev hkept hin ext hpath hassigned
  rw [← heru] at hupdate
  exact ⟨_,hupdate,k,hin,rfl⟩

variable {i : ℕ} {d : SiacoinElementDiff} {k : Coin}

theorem leaf_older (hi : i < ch.leaves.length) :
    ch'.leaves[i]? = (ch.leaves[i]?).map (StoredLeaf.markSpent ms.sces) := by
  have hlt := hstep.before.represents.length_lt
  rw [length_leafHashes,List.length_map] at hlt
  rw [hstep.leaves,storedAfter,List.getElem?_take_of_lt (by omega),List.getElem?_append_left (by rwa [List.length_map]),
    List.getElem?_map]

theorem leaf_added (hinj : Set.InjOn c.sum256 S) (hroom : ch'.leaves.length < 2^64 - 1) {j : ℕ}
    (hd : d ∈ ms.sces) (hcreated : d.created = true) (hj : (addedLeaves ((ms.diffs (b.id c)).appliedLeaves c))[j]? =
      some (siacoinLeaf c i d.siacoinElement d.spent)) :
    ch'.leaves[ch.leaves.length + j]? = some ⟨.coin d.siacoinElement.coin, d.spent⟩ := by
  have hcap := hstep.room hroom
  have hjlt := (List.getElem?_eq_some_iff.mp hj).1
  -- the created leaves are those the accumulator is given, one by one
  have hrecords := hstep.records.addedLeaves_records (c := c) ms.sces.length ⟨ch.state.childHeight,b.id c⟩
  have hsame : siacoinLeaves c SiacoinElementDiff.spent ms.sces ++
      [chainIndexLeaf c ms.sces.length ⟨b.id c,StateElement.unassigned,⟨ch.state.childHeight,b.id c⟩⟩] =
      (ms.diffs (b.id c)).appliedLeaves c := by
    rw [hstep.applied.tracked.appliedLeaves_eq,MidState.diffs,hstep.records.base]
  rw [hsame] at hrecords
  have hat := congrArg (fun l : List LeafRecord => l[j]?) hrecords
  simp only [List.getElem?_map,hj,Option.map_some] at hat
  obtain ⟨x,hx,hrecord⟩ := Option.map_eq_some_iff.mp hat.symm
  have hself : (⟨.coin d.siacoinElement.coin,d.spent⟩ : StoredLeaf) ∈ createdLeaves ms.sces ⟨ch.state.childHeight,b.id c⟩ :=
    List.mem_append_left _ (List.mem_map.mpr ⟨d,List.mem_filter.mpr ⟨hd,hcreated⟩,rfl⟩)
  have hhash := congrArg LeafRecord.elementHash hrecord
  have hspent := congrArg LeafRecord.spent hrecord
  have helement := StoredElement.eq_coin (hinj (hstep.known x (List.mem_of_getElem? hx)) (hstep.known _ hself) hhash)
  have hx' : x = ⟨.coin d.siacoinElement.coin,d.spent⟩ := by
    cases x with
    | mk element flag =>
      simp only at helement
      simp only [StoredLeaf.record] at hspent
      rw [helement,hspent]
      rfl
  rw [hstep.leaves,storedAfter,List.getElem?_take_of_lt (by omega),List.getElem?_append_right (by simp),List.length_map,
    Nat.add_sub_cancel_left,hx,hx']

/-- An element that the block created, as it is reported: its leaf, and its proof if nobody presented it with one. -/
theorem created_reported (hinj : Set.InjOn c.sum256 S) (hshort : ch'.leaves.length ≤ 2^63) {d' : SiacoinElementDiff}
    (hd' : d' ∈ au.diffs.sces) (hcreated : d'.created = true) :
    ch.leaves.length ≤ d'.siacoinElement.stateElement.leafIndex.toNat ∧
      d'.siacoinElement.stateElement.leafIndex ≠ unassignedLeafIndex ∧
      ch'.leaves[d'.siacoinElement.stateElement.leafIndex.toNat]? = some ⟨.coin d'.siacoinElement.coin, d'.spent⟩ ∧
      (EphemeralProofsEmpty b → ValidProof c (ch'.hashes c) d'.siacoinElement.stateElement) := by
  have hroom : ch'.leaves.length < 2^64 - 1 := by omega
  have hcap := hstep.room hroom
  have hcap' : (leafHashes c (ch.leaves.map (StoredLeaf.record c))).length +
      (addedLeaves ((ms.diffs (b.id c)).appliedLeaves c)).length < 2^64 := by
    rw [length_leafHashes,List.length_map]
    exact hcap
  obtain ⟨i,hi⟩ := List.mem_iff_getElem?.mp hd'
  -- the record behind the reported one, and their leaves
  have hbehind := hi
  rw [hstep.applied.diffs,BlockDiffs.withLeaves,List.getElem?_mapIdx,Option.map_eq_some_iff] at hbehind
  obtain ⟨d,hd,rfl⟩ := hbehind
  change ms.sces[i]? = some d at hd
  have hmem := List.mem_of_getElem? hd
  have hleaf : ((ms.diffs (b.id c)).appliedLeaves c)[i]? = some (siacoinLeaf c i d.siacoinElement d.spent) := by
    have hlt := (List.getElem?_eq_some_iff.mp hd).1
    rw [hstep.applied.tracked.appliedLeaves_eq,List.getElem?_append_left (by simpa [siacoinLeaves] using hlt),siacoinLeaves,
      List.getElem?_mapIdx,hd]
    rfl
  have hleaf' := congrArg (fun l : List ElementLeaf => l[i]?)
    (hstep.applied.tracked.reported_leaves (b.id c) (out.eau.updated.flatten ++ out.added))
  simp only [List.getElem?_mapIdx,hleaf,Option.map_some] at hleaf'
  rw [← hstep.applied.diffs] at hleaf'
  obtain ⟨l,hl,hback⟩ := hstep.applied.reported hcap hleaf'
  obtain rfl := Option.some.inj (hleaf.symm.trans hl)
  obtain ⟨j,hj,-,hposition,-⟩ := hback.added_position hcap' ((hstep.records.created_iff hmem).mp hcreated)
  have hjlt := (List.getElem?_eq_some_iff.mp hj).1
  have hadded := hstep.leaf_added hinj hroom hmem hcreated hj
  have hlt := (List.getElem?_eq_some_iff.mp hadded).1
  rw [length_leafHashes,List.length_map] at hposition
  have hindex : (BlockDiffs.readBack (out.eau.updated.flatten ++ out.added) i d.siacoinElement.stateElement).leafIndex.toNat =
      ch.leaves.length + j := by
    have htoNat := congrArg UInt64.toNat hposition
    rwa [Word64.toNat_ofNat_of_lt (by omega)] at htoNat
  refine ⟨?_,?_,?_,?_⟩
  · exact hindex ▸ Nat.le_add_right _ _
  · intro heq
    have htoNat := congrArg UInt64.toNat heq
    have hmarker : unassignedLeafIndex.toNat = 10101010101010101010 := by decide
    have hposition := hindex.symm.trans htoNat
    omega
  · rw [← hindex] at hadded
    exact hadded
  · intro hempty
    have hvalid := (hback.valid hcap' hstep.applied.distinct hstep.applied.valid (List.mem_of_getElem? hleaf)
      (hstep.records.proof_empty hstep.applied.tracked hempty _ (List.mem_of_getElem? hleaf))).1
    rw [← hstep.applied.hashes_eq hcap] at hvalid
    exact hvalid

theorem coins_eq : b.coins c ch.state.childHeight ch.state.network.maturityDelay =
    b.coins c (UInt64.ofNat (blocks.length + 1)) m.network.maturityDelay := by
  rw [hstep.before.childHeight.1,hstep.before.network]

theorem spent_reported (hd : d ∈ au.diffs.sces) :
    d.spent = decide (d.siacoinElement.id ∈ inputIDs b.v2Transactions) := by
  obtain ⟨d₀,hd₀,heffect⟩ := List.mem_map.mp (hstep.effects ▸ List.mem_map_of_mem hd)
  simp only [SiacoinElementDiff.effect,Prod.mk.injEq] at heffect
  obtain ⟨hcoin,-,hspent⟩ := heffect
  have hrecord := hstep.records.keyed.record_eq_some.mpr ⟨hd₀,rfl⟩
  have hid : d₀.siacoinElement.id = d.siacoinElement.id := congrArg Coin.id hcoin
  rw [← hspent,Bool.eq_iff_iff,decide_eq_true_iff,hstep.records.spent,← hid]
  constructor
  · intro hd
    exact ⟨d₀,hrecord,hd⟩
  · rintro ⟨d₁,hd₁,hspent₁⟩
    rwa [Option.some.inj (hrecord.symm.trans hd₁)]

theorem created_iff_coin : (∃ d ∈ au.diffs.sces, d.created = true ∧ d.siacoinElement.coin = k) ↔
    k ∈ b.coins c (UInt64.ofNat (blocks.length + 1)) m.network.maturityDelay := by
  rw [← hstep.coins_eq]
  constructor
  · rintro ⟨d,hd,hcreated,rfl⟩
    obtain ⟨d₀,hd₀,heffect⟩ := List.mem_map.mp (hstep.effects ▸ List.mem_map_of_mem hd)
    simp only [SiacoinElementDiff.effect,Prod.mk.injEq] at heffect
    rw [← heffect.1]
    exact (hstep.records.new _ d₀ (hstep.records.keyed.record_eq_some.mpr ⟨hd₀,rfl⟩) (heffect.2.1.trans hcreated)).2.2
  · intro hk
    obtain ⟨d₀,hrecord,hcreated,hcoin⟩ := hstep.records.listed k hk
    have hd₀ := (hstep.records.keyed.record_eq_some.mp hrecord).1
    obtain ⟨d,hd,heffect⟩ := List.mem_map.mp (hstep.effects.symm ▸ List.mem_map_of_mem hd₀)
    simp only [SiacoinElementDiff.effect,Prod.mk.injEq] at heffect
    exact ⟨d,hd,heffect.2.1.trans hcreated,heffect.1.trans hcoin⟩

theorem created_fresh {id : SiacoinOutputID} (hid : id ∈ b.createdIDs c) : id ∉ (createdCoins c m blocks).map Coin.id := by
  rw [← Block.map_id_coins,← hstep.coins_eq] at hid
  obtain ⟨k,hk,rfl⟩ := List.mem_map.mp hid
  obtain ⟨d,hrecord,hcreated,-⟩ := hstep.records.listed k hk
  exact (hstep.records.new _ d hrecord hcreated).1

theorem leaf_kept {flag : Bool} (h : ch.leaves[i]? = some ⟨.coin k, flag⟩) :
    ch'.leaves[i]? = some ⟨.coin k, flag || decide (k.id ∈ inputIDs b.v2Transactions)⟩ := by
  have hspent : (∃ d ∈ ms.sces, d.spent = true ∧ d.siacoinElement.id = k.id) ↔ k.id ∈ inputIDs b.v2Transactions := by
    rw [hstep.records.spent]
    constructor
    · rintro ⟨d,hd,hspent,hid⟩
      exact ⟨d,hstep.records.keyed.record_eq_some.mpr ⟨hd,hid⟩,hspent⟩
    · rintro ⟨d,hrecord,hspent⟩
      obtain ⟨hd,hid⟩ := hstep.records.keyed.record_eq_some.mp hrecord
      exact ⟨d,hd,hspent,hid⟩
  rw [hstep.leaf_older (List.getElem?_eq_some_iff.mp h).1,h,Option.map_some,StoredLeaf.markSpent]
  simp only [hspent]

theorem leaf_unspent (hi : i < ch.leaves.length) (h : ch'.leaves[i]? = some ⟨.coin k, false⟩) :
    ch.leaves[i]? = some ⟨.coin k, false⟩ ∧ k.id ∉ b.createdIDs c := by
  rw [hstep.leaf_older hi,Option.map_eq_some_iff] at h
  obtain ⟨⟨element,flag⟩,hl,hmark⟩ := h
  have helement := congrArg StoredLeaf.element hmark
  rw [StoredLeaf.markSpent_element] at helement
  obtain rfl : element = .coin k := helement
  have hflag := congrArg StoredLeaf.spent hmark
  simp only [StoredLeaf.markSpent,Bool.or_eq_false_iff] at hflag
  rw [hflag.1] at hl
  refine ⟨hl,fun hid => hstep.created_fresh hid ?_⟩
  exact List.mem_map_of_mem (hstep.before.leaves.created _ (List.mem_of_getElem? hl) k rfl)

end BlockStep

end Carried

end QdayNode
