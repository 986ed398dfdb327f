import QdayNode.Consensus.LedgerStep

/-!
# What the accumulator stores

The accumulator keeps hashes only.  Beside it runs the list of the elements behind
them: a block marks the leaves of the outputs it spends and appends leaves for what it
creates and for its own chain index.  A leaf that is not marked is an unspent output of
the ledger, which is what membership in the accumulator is worth.
-/
namespace QdayNode
open ByteString MerkleForest

variable {c : Crypto} {sces : List SiacoinElementDiff} {ci : ChainIndex} {e : SiacoinElement} {k : Coin}
  {S : Set Bytes} {unspent : List Coin} {i : ℕ} {d : SiacoinElementDiff}

inductive StoredElement
  | coin (k : Coin)
  | index (ci : ChainIndex)

structure StoredLeaf where
  element : StoredElement
  spent : Bool

def StoredElement.preimage : StoredElement → Bytes
  | .coin k => SiacoinElement.leafPreimage ⟨k.id, StateElement.unassigned, k.output, k.maturityHeight⟩
  | .index ci => ChainIndexElement.leafPreimage ⟨ci.id, StateElement.unassigned, ci⟩

def StoredLeaf.record (c : Crypto) (l : StoredLeaf) : LeafRecord := ⟨c.sum256 l.element.preimage, l.spent⟩

def StoredLeaf.markSpent (sces : List SiacoinElementDiff) (l : StoredLeaf) : StoredLeaf :=
  match l.element with
  | .coin k => { l with spent := l.spent || decide (∃ d ∈ sces, d.spent = true ∧ d.siacoinElement.id = k.id) }
  | .index _ => l

def createdLeaves (sces : List SiacoinElementDiff) (ci : ChainIndex) : List StoredLeaf :=
  (sces.filter SiacoinElementDiff.created).map (fun d => ⟨.coin d.siacoinElement.coin, d.spent⟩) ++ [⟨.index ci, false⟩]

/-- The stored elements after a block at `ci`; a full accumulator takes no more leaves. -/
def storedAfter (leaves : List StoredLeaf) (sces : List SiacoinElementDiff) (ci : ChainIndex) : List StoredLeaf :=
  (leaves.map (StoredLeaf.markSpent sces) ++ createdLeaves sces ci).take (2^64 - 1)

section Elements

theorem StoredElement.preimage_coin (e : SiacoinElement) : (StoredElement.coin e.coin).preimage = e.leafPreimage := rfl

variable {x : StoredElement} {l : StoredLeaf}

theorem StoredElement.eq_coin (h : x.preimage = e.leafPreimage) :
    x = .coin e.coin := by
  cases x with
  | coin k =>
    have hcoin := leafPreimage_injective h
    rw [← hcoin]
    rfl
  | index ci =>
    exfalso
    have hhead := congrArg (List.take 10) h
    simp only [preimage,ChainIndexElement.leafPreimage,SiacoinElement.leafPreimage,List.append_assoc] at hhead
    rw [List.take_append_of_le_length (by decide),List.take_append_of_le_length (by decide)] at hhead
    exact absurd hhead (by decide)

theorem StoredElement.eq_index (h : x.preimage = (StoredElement.index ci).preimage) :
    ∃ ci', x = .index ci' ∧ ci'.id = ci.id := by
  cases x with
  | coin k =>
    have hcoin := StoredElement.eq_coin (x := .index ci) h.symm
    cases hcoin
  | index ci' =>
    refine ⟨ci',rfl,?_⟩
    simp only [preimage,ChainIndexElement.leafPreimage,List.append_assoc] at h
    exact ((prefixCode_fixedBytes 32).apply (List.append_cancel_left h)).1

@[simp] theorem StoredLeaf.markSpent_element (l : StoredLeaf) : (l.markSpent sces).element = l.element := by
  cases l with
  | mk element spent =>
    cases element with
    | coin k => rfl
    | index ci => rfl

theorem StoredLeaf.markSpent_of_spent (hl : l.element = .coin k)
    (hspent : ∃ d ∈ sces, d.spent = true ∧ d.siacoinElement.id = k.id) : l.markSpent sces = ⟨.coin k, true⟩ := by
  cases l with
  | mk element spent =>
    subst hl
    simp only [markSpent,hspent,decide_true,Bool.or_true]

theorem StoredLeaf.markSpent_of_not
    (hno : ∀ k, l.element = .coin k → ¬ ∃ d ∈ sces, d.spent = true ∧ d.siacoinElement.id = k.id) :
    l.markSpent sces = l := by
  cases l with
  | mk element spent =>
    cases element with
    | coin k => simp only [markSpent,hno k rfl,decide_false,Bool.or_false]
    | index ci => rfl

theorem mem_createdLeaves (h : l ∈ createdLeaves sces ci) :
    (∃ d ∈ sces, d.created = true ∧ l = ⟨.coin d.siacoinElement.coin, d.spent⟩) ∨ l = ⟨.index ci, false⟩ := by
  rw [createdLeaves,List.mem_append,List.mem_singleton] at h
  rcases h with h | h
  · obtain ⟨d,hd,rfl⟩ := List.mem_map.mp h
    obtain ⟨hmem,hcreated⟩ := List.mem_filter.mp hd
    exact .inl ⟨d,hmem,hcreated,rfl⟩
  · exact .inr h

end Elements

theorem storedAfter_index {leaves : List StoredLeaf} {ci' : ChainIndex} {l : StoredLeaf}
    (hl : l ∈ storedAfter leaves sces ci) (hci : l.element = .index ci') :
    ci' = ci ∨ ∃ l₀ ∈ leaves, l₀.element = .index ci' := by
  rcases List.mem_append.mp (List.mem_of_mem_take hl) with hl | hl
  · obtain ⟨l₀,hl₀,rfl⟩ := List.mem_map.mp hl
    rw [StoredLeaf.markSpent_element] at hci
    exact .inr ⟨l₀,hl₀,hci⟩
  · obtain ⟨d,-,-,rfl⟩ | rfl := mem_createdLeaves hl
    · cases hci
    · exact .inl (StoredElement.index.inj hci).symm

/-- The leaves against the ledger: every output on a leaf was created, is there once, and is unspent
unless the leaf is marked. -/
structure LeafLedger (S : Set Bytes) (created unspent : List Coin) (leaves : List StoredLeaf) : Prop where
  known : ∀ l ∈ leaves, l.element.preimage ∈ S
  created : ∀ l ∈ leaves, ∀ k, l.element = .coin k → k ∈ created
  unspent : ∀ l ∈ leaves, ∀ k, l.element = .coin k → l.spent = false → k ∈ unspent
  distinct : leaves.Pairwise fun a b => ∀ k k', a.element = .coin k → b.element = .coin k' → k.id ≠ k'.id

section Member

variable {created : List Coin} {leaves : List StoredLeaf} {acc : ElementAccumulator}

theorem LeafLedger.unique (h : LeafLedger S created unspent leaves) {j : ℕ} {a b : StoredLeaf} {k' : Coin}
    (ha : leaves[i]? = some a) (hb : leaves[j]? = some b) (hk : a.element = .coin k) (hk' : b.element = .coin k')
    (hid : k.id = k'.id) : i = j := by
  obtain ⟨hi,rfl⟩ := List.getElem?_eq_some_iff.mp ha
  obtain ⟨hj,rfl⟩ := List.getElem?_eq_some_iff.mp hb
  have hpairs := List.pairwise_iff_getElem.mp h.distinct
  rcases Nat.lt_trichotomy i j with hlt | heq | hlt
  · exact absurd hid (hpairs i j hi hj hlt k k' hk hk')
  · exact heq
  · exact absurd hid.symm (hpairs j i hj hi hlt k' k hk' hk)

theorem LeafLedger.stored_of_record (h : LeafLedger S created unspent leaves) (hinj : Set.InjOn c.sum256 S)
    (he : e.leafPreimage ∈ S) {spent : Bool}
    (hrecord : (leaves.map (StoredLeaf.record c))[i]? = some ⟨c.sum256 e.leafPreimage, spent⟩) :
    leaves[i]? = some ⟨.coin e.coin, spent⟩ := by
  rw [List.getElem?_map,Option.map_eq_some_iff] at hrecord
  obtain ⟨l,hl,hrecord⟩ := hrecord
  have hhash := congrArg LeafRecord.elementHash hrecord
  have hspent := congrArg LeafRecord.spent hrecord
  have helement := StoredElement.eq_coin (hinj (h.known l (List.mem_of_getElem? hl)) he hhash)
  cases l with
  | mk element flag =>
    simp only at helement
    simp only [StoredLeaf.record] at hspent
    rw [hl,helement,hspent]

theorem LeafLedger.unspent_of_contains (h : LeafLedger S created unspent leaves) (hinj : Set.InjOn c.sum256 S)
    (hrep : Represents c acc (leafHashes c (leaves.map (StoredLeaf.record c))))
    (hforest : ∀ m ∈ forestMessages c (leaves.map (StoredLeaf.record c)), m ∈ S) {sci : V2SiacoinInput}
    (hmessages : ∀ m ∈ sci.messages c, m ∈ S) (hcontains : acc.containsUnspentSiacoinElement c sci.parent = true) :
    sci.parent.coin ∈ unspent := by
  rw [V2SiacoinInput.messages,List.forall_mem_cons] at hmessages
  obtain ⟨hrecord,-⟩ := mem_of_containsLeaf hrep hinj hforest hmessages.2 hcontains
  have hleaf := h.stored_of_record hinj hmessages.1 hrecord
  exact h.unspent _ (List.mem_of_getElem? hleaf) _ rfl rfl

end Member

section After

variable {genesis : Transaction} {s : State} {created coins : List Coin}
  {consumed : List SiacoinOutputID} {bids : List BlockID} {txns : List V2Transaction} {ms : MidState}
  {leaves : List StoredLeaf}

theorem BlockLedger.created_iff (h : BlockLedger s created unspent txns coins ms)
    (hd : d ∈ ms.sces) : d.created = true ↔ d.leafIndex = unassignedLeafIndex := by
  have hrecord := h.keyed.record_eq_some.mpr ⟨hd,rfl⟩
  cases hc : d.created with
  | false =>
    have hassigned := (h.old _ d hrecord hc).2.2
    refine ⟨fun hfalse => ?_,fun heq => absurd heq hassigned⟩
    cases hfalse
  | true => exact ⟨fun _ => (h.new _ d hrecord hc).2.1,fun _ => rfl⟩

theorem exists_updatedLeaf (c : Crypto) (spent : SiacoinElementDiff → Bool)
    (hd : d ∈ sces) (hassigned : d.leafIndex ≠ unassignedLeafIndex) :
    ∃ l ∈ updatedLeaves (siacoinLeaves c spent sces), l.leafIndex = d.leafIndex.toNat := by
  apply List.mem_map.mp
  rw [map_leafIndex_updatedLeaves]
  exact List.mem_map.mpr ⟨d,List.mem_filter.mpr ⟨hd,decide_eq_true hassigned⟩,rfl⟩

theorem BlockLedger.addedLeaves_records (h : BlockLedger s created unspent txns coins ms) (n : ℕ) (ci : ChainIndex) :
    (addedLeaves (siacoinLeaves c SiacoinElementDiff.spent ms.sces ++
      [chainIndexLeaf c n ⟨ci.id, StateElement.unassigned, ci⟩])).map ElementLeaf.record =
      (createdLeaves ms.sces ci).map (StoredLeaf.record c) := by
  have hpairs : (siacoinLeaves c SiacoinElementDiff.spent ms.sces).map
      (fun l => (l.stateElement.leafIndex, l.record)) =
      ms.sces.map fun d => (d.leafIndex, StoredLeaf.record c ⟨.coin d.siacoinElement.coin,d.spent⟩) := by
    refine List.ext_getElem? fun i => ?_
    simp only [siacoinLeaves,List.getElem?_map,List.getElem?_mapIdx,Option.map_map]
    rfl
  have hfilter := congrArg (List.filter fun p => p.1 = unassignedLeafIndex) hpairs
  rw [List.filter_map,List.filter_map] at hfilter
  have hrecords := congrArg (List.map Prod.snd) hfilter
  rw [List.map_map,List.map_map] at hrecords
  have hcreated : ms.sces.filter SiacoinElementDiff.created =
      ms.sces.filter fun d => d.leafIndex = unassignedLeafIndex := by
    refine List.filter_congr fun d hd => ?_
    rw [Bool.eq_iff_iff,h.created_iff hd,decide_eq_true_iff]
  rw [addedLeaves,createdLeaves,List.filter_append,List.map_append,List.map_append,List.map_map,hcreated]
  exact congrArg (· ++ _) hrecords

/-- A block updates the list of hashes as it updates the list of stored elements. -/
theorem BlockLedger.leafHashes_marked (h : BlockLedger s created unspent txns coins ms)
    (hleaves : LeafLedger S created unspent leaves) (hinj : Set.InjOn c.sum256 S)
    (hstored : ∀ d ∈ ms.sces, d.leafIndex ≠ unassignedLeafIndex →
      d.siacoinElement.leafPreimage ∈ S ∧ (leaves.map (StoredLeaf.record c))[d.leafIndex.toNat]? =
        some ⟨c.sum256 d.siacoinElement.leafPreimage, false⟩)
    (hdistinct : ((updatedLeaves (siacoinLeaves c SiacoinElementDiff.spent ms.sces)).map
      ElementLeaf.leafIndex).Nodup) :
    leafHashes c ((leaves.map (StoredLeaf.markSpent ms.sces)).map (StoredLeaf.record c)) =
      replaceLeaves c (leafHashes c (leaves.map (StoredLeaf.record c)))
        (updatedLeaves (siacoinLeaves c SiacoinElementDiff.spent ms.sces)) := by
  have hleaf : ∀ d ∈ ms.sces, d.leafIndex ≠ unassignedLeafIndex →
      leaves[d.leafIndex.toNat]? = some ⟨.coin d.siacoinElement.coin,false⟩ := fun d hd hassigned =>
    hleaves.stored_of_record hinj (hstored d hd hassigned).1 (hstored d hd hassigned).2
  refine List.ext_getElem? fun i => ?_
  by_cases hex : ∃ l ∈ updatedLeaves (siacoinLeaves c SiacoinElementDiff.spent ms.sces), l.leafIndex = i
  · obtain ⟨l,hl,rfl⟩ := hex
    obtain ⟨hmem,hassigned⟩ := List.mem_filter.mp hl
    obtain ⟨j,d,hd,rfl⟩ := mem_siacoinLeaves hmem
    have hassigned : d.leafIndex ≠ unassignedLeafIndex := of_decide_eq_true hassigned
    have hat := hleaf d hd hassigned
    have hlt := (List.getElem?_eq_some_iff.mp hat).1
    have hspent : d.spent = true := by
      have hrecord := h.keyed.record_eq_some.mpr ⟨hd,rfl⟩
      cases hc : d.created with
      | false => exact (h.old _ d hrecord hc).2.1
      | true => exact absurd (h.new _ d hrecord hc).2.1 hassigned
    have hindex : (siacoinLeaf c j d.siacoinElement d.spent).leafIndex = d.leafIndex.toNat := rfl
    rw [getElem?_replaceLeaves_of_mem hdistinct hl (by simpa [hindex] using hlt),hindex,getElem?_leafHashes,
      List.getElem?_map,List.getElem?_map,hat,Option.map_some,
      StoredLeaf.markSpent_of_spent rfl ⟨d,hd,hspent,rfl⟩]
    simp only [Option.map_some,StoredLeaf.record,StoredElement.preimage_coin,LeafRecord.preimage]
    rw [UInt64.ofNat_toNat,← hspent]
    rfl
  · have hno : ∀ l ∈ updatedLeaves (siacoinLeaves c SiacoinElementDiff.spent ms.sces), l.leafIndex ≠ i :=
      fun l hl heq => hex ⟨l,hl,heq⟩
    rw [getElem?_replaceLeaves_of_ne hno,getElem?_leafHashes,getElem?_leafHashes,List.getElem?_map,
      List.getElem?_map,List.getElem?_map]
    cases hl : leaves[i]? with
    | none => rfl
    | some l =>
      have hsame : l.markSpent ms.sces = l := by
        refine StoredLeaf.markSpent_of_not fun k hk hspent => ?_
        obtain ⟨d,hd,-,hid⟩ := hspent
        have hmem := List.mem_of_getElem? hl
        by_cases hassigned : d.leafIndex = unassignedLeafIndex
        · -- a new record does not share its ID with an output on a leaf
          have hnew := h.new _ d (h.keyed.record_eq_some.mpr ⟨hd,rfl⟩) ((h.created_iff hd).mpr hassigned)
          exact hnew.1 (hid ▸ List.mem_map_of_mem (hleaves.created l hmem k hk))
        · have hi := hleaves.unique (hleaf d hd hassigned) hl rfl hk hid
          obtain ⟨l',hl',heq⟩ := exists_updatedLeaf c SiacoinElementDiff.spent hd hassigned
          exact hno l' hl' (heq.trans hi)
      rw [Option.map_some,hsame]

theorem leafHashes_append (c : Crypto) (R R' : List LeafRecord) :
    leafHashes c (R ++ R') = leafHashes c R ++ R'.mapIdx fun j r => c.sum256 (r.preimage (R.length + j)) := by
  simp only [leafHashes,List.mapIdx_append,Nat.add_comm R.length]

theorem leafHashes_take (c : Crypto) (R : List LeafRecord) (n : ℕ) :
    leafHashes c (R.take n) = (leafHashes c R).take n := by
  refine List.ext_getElem? fun i => ?_
  rw [getElem?_leafHashes,List.getElem?_take,List.getElem?_take,getElem?_leafHashes]
  split_ifs
  · rfl
  · rfl

theorem appendedLeaves_eq (c : Crypto) (n : ℕ) (added : List ElementLeaf) :
    appendedLeaves c n added = (added.map ElementLeaf.record).mapIdx fun j r => c.sum256 (r.preimage (n + j)) := by
  refine List.ext_getElem? fun i => ?_
  simp only [appendedLeaves,List.getElem?_mapIdx,List.getElem?_map,Option.map_map]
  rfl

/-- What the tracked records say about the leaves: the updates are distinct and proved, and the hashes
change as the stored elements do. -/
theorem BlockLedger.leafHashes_after (h : BlockLedger s created unspent txns coins ms) (htracked : Tracked c txns ms)
    (hleaves : LeafLedger S created unspent leaves) (hinj : Set.InjOn c.sum256 S)
    (hrep : Represents c s.elements (leafHashes c (leaves.map (StoredLeaf.record c))))
    (hforest : ∀ m ∈ forestMessages c (leaves.map (StoredLeaf.record c)), m ∈ S)
    (hmessages : ∀ m ∈ inputMessages c txns, m ∈ S) (bid : BlockID) :
    ((updatedLeaves ((ms.diffs bid).appliedLeaves c)).map ElementLeaf.leafIndex).Nodup ∧
      (∀ l ∈ updatedLeaves ((ms.diffs bid).appliedLeaves c),
        ValidProof c (leafHashes c (leaves.map (StoredLeaf.record c))) l.stateElement) ∧
      leafHashes c ((storedAfter leaves ms.sces ⟨s.childHeight, bid⟩).map (StoredLeaf.record c)) =
        (leavesAfter c (leafHashes c (leaves.map (StoredLeaf.record c)))
          (updatedLeaves ((ms.diffs bid).appliedLeaves c)) (addedLeaves ((ms.diffs bid).appliedLeaves c))).take (2^64 - 1) := by
  obtain rfl := h.base
  have hdistinct := htracked.distinct hrep hinj hforest hmessages SiacoinElementDiff.spent
  have hvalid := htracked.validProof hrep hinj hforest hmessages SiacoinElementDiff.spent
  rw [htracked.updatedLeaves_applied,htracked.appliedLeaves_eq]
  refine ⟨hdistinct,hvalid,?_⟩
  have hmarked := h.leafHashes_marked hleaves hinj (fun d hd hassigned =>
    have hstored := htracked.stored hrep hinj hforest hmessages hd hassigned
    ⟨hstored.2.2,hstored.1⟩) hdistinct
  rw [storedAfter,List.map_take,leafHashes_take,List.map_append,leafHashes_append,hmarked,List.length_map,
    List.length_map,← h.addedLeaves_records ms.sces.length,leavesAfter,appendedLeaves_eq,length_leafHashes,
    List.length_map]
  rfl

theorem BlockLedger.represents_after (h : BlockLedger s created unspent txns coins ms) (htracked : Tracked c txns ms)
    (hleaves : LeafLedger S created unspent leaves) (hinj : Set.InjOn c.sum256 S)
    (hrep : Represents c s.elements (leafHashes c (leaves.map (StoredLeaf.record c))))
    (hforest : ∀ m ∈ forestMessages c (leaves.map (StoredLeaf.record c)), m ∈ S)
    (hmessages : ∀ m ∈ inputMessages c txns, m ∈ S) {bid : BlockID} {out : AppliedLeaves}
    (happly : s.elements.applyBlock c (updatedLeaves ((ms.diffs bid).appliedLeaves c))
      (addedLeaves ((ms.diffs bid).appliedLeaves c)) = .ok out) :
    Represents c out.acc
      (leafHashes c ((storedAfter leaves ms.sces ⟨s.childHeight, bid⟩).map (StoredLeaf.record c))) := by
  obtain ⟨hdistinct,hvalid,hhashes⟩ := h.leafHashes_after htracked hleaves hinj hrep hforest hmessages bid
  rw [hhashes]
  exact represents_of_ok hrep hdistinct hvalid happly

theorem LeafLedger.after (hleaves : LeafLedger S created unspent leaves)
    (h : BlockLedger s created unspent txns coins ms)
    (hknown : ∀ l ∈ createdLeaves ms.sces ci, l.element.preimage ∈ S) :
    LeafLedger S (created ++ coins) (unspentAfter unspent ms.sces) (storedAfter leaves ms.sces ci) := by
  have hmem : ∀ l ∈ storedAfter leaves ms.sces ci,
      (∃ l₀ ∈ leaves, l = l₀.markSpent ms.sces) ∨ l ∈ createdLeaves ms.sces ci := by
    intro l hl
    rcases List.mem_append.mp (List.mem_of_mem_take hl) with hl | hl
    · obtain ⟨l₀,hl₀,rfl⟩ := List.mem_map.mp hl
      exact .inl ⟨l₀,hl₀,rfl⟩
    · exact .inr hl
  have hnew : ∀ l ∈ createdLeaves ms.sces ci, ∀ k, l.element = .coin k →
      ∃ d ∈ ms.sces, d.created = true ∧ d.siacoinElement.coin = k ∧ l.spent = d.spent := by
    intro l hl k hk
    obtain ⟨d,hd,hcreated,rfl⟩ | rfl := mem_createdLeaves hl
    · exact ⟨d,hd,hcreated,StoredElement.coin.inj hk,rfl⟩
    · cases hk
  refine ⟨?_,?_,?_,?_⟩
  · intro l hl
    obtain ⟨l₀,hl₀,rfl⟩ | hl := hmem l hl
    · rw [StoredLeaf.markSpent_element]
      exact hleaves.known l₀ hl₀
    · exact hknown l hl
  · intro l hl k hk
    obtain ⟨l₀,hl₀,rfl⟩ | hl := hmem l hl
    · rw [StoredLeaf.markSpent_element] at hk
      exact List.mem_append_left _ (hleaves.created l₀ hl₀ k hk)
    · obtain ⟨d,hd,hcreated,rfl,-⟩ := hnew l hl k hk
      exact List.mem_append_right _ (h.new _ d (h.keyed.record_eq_some.mpr ⟨hd,rfl⟩) hcreated).2.2
  · intro l hl k hk hlive
    rw [unspentAfter,List.mem_append,List.mem_filter]
    obtain ⟨l₀,hl₀,rfl⟩ | hl := hmem l hl
    · rw [StoredLeaf.markSpent_element] at hk
      left
      by_cases hspent : ∃ d ∈ ms.sces, d.spent = true ∧ d.siacoinElement.id = k.id
      · rw [StoredLeaf.markSpent_of_spent hk hspent] at hlive
        cases hlive
      · rw [StoredLeaf.markSpent,hk] at hlive
        exact ⟨hleaves.unspent l₀ hl₀ k hk (Bool.or_eq_false_iff.mp hlive).1,decide_eq_true hspent⟩
    · obtain ⟨d,hd,hcreated,rfl,hflag⟩ := hnew l hl k hk
      right
      rw [hflag] at hlive
      refine List.mem_map.mpr ⟨d,List.mem_filter.mpr ⟨hd,?_⟩,rfl⟩
      rw [hcreated,hlive]
      rfl
  · refine List.Pairwise.sublist (List.take_sublist _ _) (List.pairwise_append.mpr ⟨?_,?_,?_⟩)
    · rw [List.pairwise_map]
      simp only [StoredLeaf.markSpent_element]
      exact hleaves.distinct
    · rw [createdLeaves]
      refine List.pairwise_append.mpr ⟨?_,List.pairwise_singleton _ _,?_⟩
      · rw [List.pairwise_map]
        have hnodup := List.pairwise_map.mp h.keyed.nodup
        refine (hnodup.sublist List.filter_sublist).imp fun hne k k' hk hk' => ?_
        rw [← StoredElement.coin.inj hk,← StoredElement.coin.inj hk']
        exact hne
      · intro a _ b hb k k' _ hk'
        rw [List.mem_singleton.mp hb] at hk'
        cases hk'
    · intro a ha b hb k k' hk hk' hid
      obtain ⟨l₀,hl₀,rfl⟩ := List.mem_map.mp ha
      rw [StoredLeaf.markSpent_element] at hk
      obtain ⟨d,hd,hcreated,rfl,-⟩ := hnew b hb k' hk'
      have hcreated₀ := List.mem_map_of_mem (f := Coin.id) (hleaves.created l₀ hl₀ k hk)
      rw [hid] at hcreated₀
      exact (h.new _ d (h.keyed.record_eq_some.mpr ⟨hd,rfl⟩) hcreated).1 hcreated₀

end After

section Reported

variable {leaves : List StoredLeaf} {sces' : List SiacoinElementDiff}

/-- A record without its position and proof. -/
def SiacoinElementDiff.effect (d : SiacoinElementDiff) : Coin × Bool × Bool := (d.siacoinElement.coin, d.created, d.spent)

theorem withLeaves_effects (d : BlockDiffs) (ls : List ElementLeaf) :
    (d.withLeaves ls).sces.map SiacoinElementDiff.effect = d.sces.map SiacoinElementDiff.effect := by
  refine List.ext_getElem? fun i => ?_
  simp only [BlockDiffs.withLeaves,List.getElem?_map,List.getElem?_mapIdx,Option.map_map]
  rfl

variable (h : sces.map SiacoinElementDiff.effect = sces'.map SiacoinElementDiff.effect)
include h

theorem exists_spent_congr (id : SiacoinOutputID) : (∃ d ∈ sces, d.spent = true ∧ d.siacoinElement.id = id) ↔
    ∃ d ∈ sces', d.spent = true ∧ d.siacoinElement.id = id := by
  have heffects : ∀ l : List SiacoinElementDiff, (∃ d ∈ l, d.spent = true ∧ d.siacoinElement.id = id) ↔
      ∃ e ∈ l.map SiacoinElementDiff.effect, e.2.2 = true ∧ e.1.id = id := fun l => by
    simp only [List.mem_map,exists_exists_and_eq_and]
    rfl
  rw [heffects,heffects,h]

theorem filter_effects_congr {β : Type} (p : Coin × Bool × Bool → Bool) (f : Coin × Bool × Bool → β) :
    (sces.filter fun d => p d.effect).map (fun d => f d.effect) =
      (sces'.filter fun d => p d.effect).map fun d => f d.effect := by
  have heffects : ∀ l : List SiacoinElementDiff, (l.filter fun d => p d.effect).map (fun d => f d.effect) =
      ((l.map SiacoinElementDiff.effect).filter p).map f := fun l => by
    rw [List.filter_map,List.map_map]
    rfl
  rw [heffects,heffects,h]

theorem unspentAfter_congr : unspentAfter unspent sces = unspentAfter unspent sces' := by
  unfold unspentAfter
  simp only [exists_spent_congr h]
  exact congrArg _ (filter_effects_congr h (fun e => e.2.1 && !e.2.2) Prod.fst)

theorem createdLeaves_congr : createdLeaves sces ci = createdLeaves sces' ci :=
  congrArg (· ++ _) (filter_effects_congr h (fun e => e.2.1) fun e => StoredLeaf.mk (.coin e.1) e.2.2)

theorem storedAfter_congr : storedAfter leaves sces ci = storedAfter leaves sces' ci := by
  unfold storedAfter StoredLeaf.markSpent
  simp only [exists_spent_congr h,createdLeaves_congr h]

end Reported

end QdayNode
