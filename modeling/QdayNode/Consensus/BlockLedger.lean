import QdayNode.Consensus.Identifiers

/-!
# The ledger inside a block

Against a ledger of created, consumed and unspent outputs, the records of a valid
block are of two kinds: outputs that were unspent before the block and that it
consumed, and outputs that it created under new IDs.
-/
namespace QdayNode
open ByteString

variable {c : Crypto} {txn : V2Transaction} {sci : V2SiacoinInput} {S : Set Bytes} {consumed : List SiacoinOutputID}
  {bids : List BlockID}

/-- The outputs of a chain: those ever created, those never consumed, and the IDs consumed. -/
structure Ledger (c : Crypto) (S : Set Bytes) (genesis : Transaction) (created unspent : List Coin)
    (consumed : List SiacoinOutputID) (bids : List BlockID) : Prop where
  created_nodup : (created.map Coin.id).Nodup
  unspent_nodup : (unspent.map Coin.id).Nodup
  consumed_nodup : consumed.Nodup
  unspent_created : ∀ k ∈ unspent, k ∈ created
  unspent_live : ∀ k ∈ unspent, k.id ∉ consumed
  consumed_created : ∀ id ∈ consumed, id ∈ created.map Coin.id
  origin : ∀ k ∈ created, Origin c S genesis consumed bids k.id

def inputIDs (txns : List V2Transaction) : List SiacoinOutputID := txns.flatMap V2Transaction.inputIDs

def coinsOf (c : Crypto) (height : UInt64) (txns : List V2Transaction) : List Coin :=
  txns.flatMap (V2Transaction.coins c height)

@[simp] theorem inputIDs_snoc (txns : List V2Transaction) (txn : V2Transaction) :
    inputIDs (txns ++ [txn]) = inputIDs txns ++ txn.inputIDs := by
  simp [inputIDs]

@[simp] theorem coinsOf_snoc (c : Crypto) (height : UInt64) (txns : List V2Transaction) (txn : V2Transaction) :
    coinsOf c height (txns ++ [txn]) = coinsOf c height txns ++ txn.coins c height := by
  simp [coinsOf]

theorem mem_coins {height : UInt64} {k : Coin} :
    k ∈ txn.coins c height ↔
      ∃ i sco, txn.siacoinOutputs[i]? = some sco ∧ k = ⟨siacoinOutputID c (txn.id c) i, sco, height⟩ := by
  simp only [V2Transaction.coins,List.mem_mapIdx]
  constructor
  · rintro ⟨i,hi,rfl⟩
    exact ⟨i,_,List.getElem?_eq_getElem hi,rfl⟩
  · rintro ⟨i,sco,hi,rfl⟩
    obtain ⟨hlt,rfl⟩ := List.getElem?_eq_some_iff.mp hi
    exact ⟨i,hlt,rfl⟩

/-- The records after the transactions `txns` of a block have created `coins`, against the ledger
before the block. -/
structure BlockLedger (s : State) (created unspent : List Coin) (txns : List V2Transaction) (coins : List Coin)
    (ms : MidState) : Prop where
  base : ms.base = s
  keyed : ms.Keyed
  short : ∀ txn ∈ txns, txn.siacoinInputs.length < 2^64
  funded : ∀ txn ∈ txns, txn.siacoinOutputs ≠ [] → txn.siacoinInputs ≠ []
  consumed_nodup : (inputIDs txns).Nodup
  spends : ∀ id, (ms.spends id).isSome = true ↔ id ∈ inputIDs txns
  spent : ∀ id, id ∈ inputIDs txns ↔ ∃ d, ms.record id = some d ∧ d.spent = true
  old : ∀ id d, ms.record id = some d → d.created = false →
    d.siacoinElement.coin ∈ unspent ∧ d.spent = true ∧ d.leafIndex ≠ unassignedLeafIndex
  new : ∀ id d, ms.record id = some d → d.created = true →
    id ∉ created.map Coin.id ∧ d.leafIndex = unassignedLeafIndex ∧ d.siacoinElement.coin ∈ coins
  listed : ∀ k ∈ coins, ∃ d, ms.record k.id = some d ∧ d.created = true ∧ d.siacoinElement.coin = k
  presented : ∀ txn ∈ txns, ∀ sci ∈ txn.siacoinInputs, ∃ d, ms.record sci.parentID = some d ∧ d.siacoinElement = sci.parent
  source : ∀ id d, ms.record id = some d → d.siacoinElement.stateElement = StateElement.unassigned ∨
    ∃ txn ∈ txns, ∃ sci ∈ txn.siacoinInputs, sci.parent = d.siacoinElement
  coins_nodup : (coins.map Coin.id).Nodup

namespace BlockLedger

variable {s : State} {created unspent coins : List Coin} {txns : List V2Transaction} {ms ms' : MidState}

theorem init (s : State) (created unspent : List Coin) : BlockLedger s created unspent [] [] (newMidState s) := by
  have hnone : ∀ id, (newMidState s).record id = none := fun id => rfl
  refine ⟨rfl,RecordTable.keyed_empty _,by simp,by simp,List.nodup_nil,?_,?_,?_,?_,?_,by simp,?_,List.nodup_nil⟩
  · intro id
    simp [newMidState,inputIDs]
  · intro id
    simp [inputIDs,hnone]
  · intro id d hd
    rw [hnone] at hd
    cases hd
  · intro id d hd
    rw [hnone] at hd
    cases hd
  · intro k hk
    cases hk
  · intro id d hd
    rw [hnone] at hd
    cases hd

/-- The two kinds of parents that validation admits. -/
inductive Parent (unspent : List Coin) (ms : MidState) (sci : V2SiacoinInput) : Prop
  | old (hrecord : ms.record sci.parentID = none) (hcoin : sci.parent.coin ∈ unspent)
      (hassigned : sci.parent.stateElement.leafIndex ≠ unassignedLeafIndex)
  | new (d : SiacoinElementDiff) (hrecord : ms.record sci.parentID = some d) (hcreated : d.created = true)
      (hlive : d.spent = false) (hcoin : d.siacoinElement.coin = sci.parent.coin)
      (hephemeral : sci.parent.stateElement.leafIndex = unassignedLeafIndex)

theorem parent (h : BlockLedger s created unspent txns coins ms) (hsub : ∀ k ∈ unspent, k ∈ created)
    (haccepted : InputAccepted c ms [] sci)
    (hmember : sci.parent.stateElement.leafIndex ≠ unassignedLeafIndex →
      s.elements.containsUnspentSiacoinElement c sci.parent = true → sci.parent.coin ∈ unspent) :
    sci.parentID ∉ inputIDs txns ∧ Parent unspent ms sci := by
  have hunspent : sci.parentID ∉ inputIDs txns := by
    rw [← h.spends]
    simp [V2SiacoinInput.parentID,haccepted.unspent]
  have hnotSpent : ∀ d, ms.record sci.parentID = some d → d.spent = false := by
    intro d hd
    cases hs : d.spent with
    | false => rfl
    | true => exact absurd ((h.spent _).mpr ⟨d,hd,hs⟩) hunspent
  refine ⟨hunspent,?_⟩
  obtain ⟨hephemeral,d,hrecord,hcreated,hcoin⟩ | ⟨hassigned,hcontains⟩ := haccepted.source
  · exact .new d hrecord hcreated (hnotSpent d hrecord) hcoin hephemeral
  · rw [h.base] at hcontains
    have hcoin := hmember hassigned hcontains
    refine .old ?_ hcoin hassigned
    cases hrecord : ms.record sci.parentID with
    | none => rfl
    | some d =>
      have hlive := hnotSpent d hrecord
      cases hc : d.created with
      | true =>
        -- created in this block, although the ledger already holds the ID
        exact absurd (List.mem_map_of_mem (hsub _ hcoin)) (h.new _ d hrecord hc).1
      | false =>
        have hspent := (h.old _ d hrecord hc).2.1
        rw [hlive] at hspent
        cases hspent

section Transfer

variable {genesis : Transaction}

def Identified (c : Crypto) (S : Set Bytes) (txn : V2Transaction) : Prop :=
  txn.idPreimage ∈ S ∧ ∀ i < txn.siacoinOutputs.length, siacoinOutputPreimage (txn.id c) i ∈ S

theorem inputs_live (hledger : Ledger c S genesis created unspent consumed bids)
    (h : BlockLedger s created unspent txns coins ms) (hparent : Parent unspent ms sci) :
    sci.parentID ∉ consumed := by
  cases hparent with
  | old _ hcoin _ => exact hledger.unspent_live _ hcoin
  | new d hrecord hcreated _ _ _ =>
    intro hmem
    exact (h.new _ d hrecord hcreated).1 (hledger.consumed_created _ hmem)

/-- The outputs of a transfer with live parents have IDs that nobody has used. -/
theorem outputs_fresh (hinj : Set.InjOn c.sum256 S) (hledger : Ledger c S genesis created unspent consumed bids)
    (h : BlockLedger s created unspent txns (coinsOf c s.childHeight txns) ms) (hids : ∀ t ∈ txns, Identified c S t)
    (hid : Identified c S txn)
    (hlen : txn.siacoinInputs.length < 2^64) (hne : txn.siacoinInputs ≠ [])
    (hparents : ∀ sci ∈ txn.siacoinInputs, sci.parentID ∉ inputIDs txns ∧ Parent unspent ms sci) {i : ℕ}
    (hi : i < txn.siacoinOutputs.length) :
    siacoinOutputID c (txn.id c) i ∉ created.map Coin.id ∧ ms.record (siacoinOutputID c (txn.id c) i) = none := by
  have hlive : ∀ p ∈ txn.inputIDs, p ∉ consumed := by
    intro p hp
    obtain ⟨sci,hsci,rfl⟩ := List.mem_map.mp hp
    exact inputs_live hledger h (hparents sci hsci).2
  have hnew : siacoinOutputID c (txn.id c) i ∉ created.map Coin.id := by
    intro hmem
    obtain ⟨k,hk,heq⟩ := List.mem_map.mp hmem
    exact (hledger.origin k hk).ne_output hinj hid.1 (hid.2 i hi) hlen hlive heq
  refine ⟨hnew,?_⟩
  cases hrecord : ms.record (siacoinOutputID c (txn.id c) i) with
  | none => rfl
  | some d =>
    exfalso
    have hkey : d.siacoinElement.id = siacoinOutputID c (txn.id c) i := (h.keyed.record_eq_some.mp hrecord).2
    cases hc : d.created with
    | false =>
      have hcoin := hledger.unspent_created _ (h.old _ d hrecord hc).1
      exact hnew (hkey ▸ List.mem_map_of_mem hcoin)
    | true =>
      -- an earlier transaction of the block with the same ID has the same, now consumed, inputs
      obtain ⟨t,ht,hcoin⟩ := List.mem_flatMap.mp (h.new _ d hrecord hc).2.2
      obtain ⟨j,sco,hj,hk⟩ := mem_coins.mp hcoin
      have hjlt := (List.getElem?_eq_some_iff.mp hj).1
      have hout : siacoinOutputID c (t.id c) j = siacoinOutputID c (txn.id c) i :=
        (congrArg Coin.id hk).symm.trans hkey
      obtain ⟨htxid,-⟩ := siacoinOutputPreimage_inj (hinj ((hids t ht).2 j hjlt) (hid.2 i hi) hout)
      have hsame := inputIDs_of_idPreimage (h.short t ht) hlen (hinj (hids t ht).1 hid.1 htxid)
      obtain ⟨sci,rest,hcons⟩ := List.exists_cons_of_ne_nil hne
      have hsci : sci ∈ txn.siacoinInputs := hcons ▸ List.mem_cons_self
      have hmem : sci.parentID ∈ t.inputIDs := hsame ▸ List.mem_map_of_mem hsci
      exact (hparents sci hsci).1 (List.mem_flatMap.mpr ⟨t,ht,hmem⟩)

end Transfer

section Step

variable (h : BlockLedger s created unspent txns coins ms) (happlied : TransferApplied c ms ms' txn)
  (hparents : ∀ sci ∈ txn.siacoinInputs, sci.parentID ∉ inputIDs txns ∧ Parent unspent ms sci)
  (hfresh : ∀ i < txn.siacoinOutputs.length, siacoinOutputID c (txn.id c) i ∉ created.map Coin.id ∧
    ms.record (siacoinOutputID c (txn.id c) i) = none)
include h happlied hparents

theorem old_of_applied : ∀ id d, ms'.record id = some d → d.created = false →
    d.siacoinElement.coin ∈ unspent ∧ d.spent = true ∧ d.leafIndex ≠ unassignedLeafIndex := by
  intro id d hd hold
  obtain ⟨sci,hsci,rfl,rfl⟩ | ⟨i,sco,-,-,rfl⟩ | ⟨-,hrecord⟩ := happlied.record_cases hd
  · cases (hparents sci hsci).2 with
    | old _ hcoin hassigned => exact ⟨hcoin,rfl,hassigned⟩
    | new d hrecord hcreated _ _ _ =>
      have hflag : (ms.record sci.parentID).elim false SiacoinElementDiff.created = false := hold
      rw [hrecord,Option.elim_some,hcreated] at hflag
      cases hflag
  · cases hold
  · exact h.old id d hrecord hold

include hfresh in
theorem new_of_applied : ∀ id d, ms'.record id = some d → d.created = true →
    id ∉ created.map Coin.id ∧ d.leafIndex = unassignedLeafIndex ∧
      d.siacoinElement.coin ∈ coins ++ txn.coins c s.childHeight := by
  intro id d hd hnew
  rw [List.mem_append]
  obtain ⟨sci,hsci,rfl,rfl⟩ | ⟨i,sco,hi,rfl,rfl⟩ | ⟨-,hrecord⟩ := happlied.record_cases hd
  · cases (hparents sci hsci).2 with
    | old hrecord _ _ =>
      have hflag : (ms.record sci.parentID).elim false SiacoinElementDiff.created = true := hnew
      rw [hrecord] at hflag
      cases hflag
    | new d hrecord hcreated _ hcoin hephemeral =>
      obtain ⟨hid,-,hmem⟩ := h.new _ d hrecord hcreated
      exact ⟨hid,hephemeral,.inl (hcoin ▸ hmem)⟩
  · refine ⟨(hfresh i (List.getElem?_eq_some_iff.mp hi).1).1,rfl,.inr (mem_coins.mpr ⟨i,sco,hi,?_⟩)⟩
    rw [← h.base]
    rfl
  · obtain ⟨hid,hleaf,hmem⟩ := h.new id d hrecord hnew
    exact ⟨hid,hleaf,.inl hmem⟩

omit h hparents in
include hfresh in
theorem record_of_applied {id : SiacoinOutputID} {d : SiacoinElementDiff} (hd : ms.record id = some d)
    (hin : id ∉ txn.inputIDs) : ms'.record id = some d := by
  rw [happlied.others id hin fun i hi heq => ?_,hd]
  have hnone := (hfresh i hi).2
  rw [heq,hd] at hnone
  cases hnone

include hfresh in
theorem spent_of_applied (id : SiacoinOutputID) :
    id ∈ inputIDs (txns ++ [txn]) ↔ ∃ d, ms'.record id = some d ∧ d.spent = true := by
  rw [inputIDs_snoc,List.mem_append]
  constructor
  · rintro (hold | hnow)
    · obtain ⟨d,hd,hspent⟩ := (h.spent id).mp hold
      refine ⟨d,record_of_applied happlied hfresh hd fun hin => ?_,hspent⟩
      obtain ⟨sci,hsci,rfl⟩ := List.mem_map.mp hin
      exact (hparents sci hsci).1 hold
    · obtain ⟨sci,hsci,rfl⟩ := List.mem_map.mp hnow
      exact ⟨_,happlied.spent sci hsci,rfl⟩
  · rintro ⟨d,hd,hspent⟩
    obtain ⟨sci,hsci,rfl,-⟩ | ⟨i,sco,-,-,rfl⟩ | ⟨-,hrecord⟩ := happlied.record_cases hd
    · exact .inr (List.mem_map_of_mem hsci)
    · cases hspent
    · exact .inl ((h.spent id).mpr ⟨d,hrecord,hspent⟩)

include hfresh in
theorem listed_of_applied : ∀ k ∈ coins ++ txn.coins c s.childHeight,
    ∃ d, ms'.record k.id = some d ∧ d.created = true ∧ d.siacoinElement.coin = k := by
  intro k hk
  rw [List.mem_append] at hk
  obtain hk | hk := hk
  · obtain ⟨d,hd,hcreated,hcoin⟩ := h.listed k hk
    by_cases hin : k.id ∈ txn.inputIDs
    · obtain ⟨sci,hsci,hid⟩ := List.mem_map.mp hin
      refine ⟨_,hid ▸ happlied.spent sci hsci,?_⟩
      cases (hparents sci hsci).2 with
      | old hrecord _ _ =>
        rw [hid,hd] at hrecord
        cases hrecord
      | new d' hrecord hcreated' _ hcoin' _ =>
        obtain rfl : d = d' := Option.some.inj (hd.symm.trans (hid ▸ hrecord))
        refine ⟨?_,hcoin'.symm.trans hcoin⟩
        change (ms.record sci.parentID).elim false SiacoinElementDiff.created = true
        rw [hrecord,Option.elim_some,hcreated']
    · exact ⟨d,record_of_applied happlied hfresh hd hin,hcreated,hcoin⟩
  · obtain ⟨i,sco,hi,rfl⟩ := mem_coins.mp hk
    refine ⟨_,happlied.created i sco hi,rfl,?_⟩
    rw [h.base]
    rfl

include hfresh in
theorem presented_of_applied : ∀ t ∈ txns ++ [txn], ∀ sci ∈ t.siacoinInputs,
    ∃ d, ms'.record sci.parentID = some d ∧ d.siacoinElement = sci.parent := by
  intro t ht sci hsci
  rcases List.mem_append.mp ht with ht | ht
  · obtain ⟨d,hd,helement⟩ := h.presented t ht sci hsci
    refine ⟨d,record_of_applied happlied hfresh hd fun hin => ?_,helement⟩
    obtain ⟨sci',hsci',hid⟩ := List.mem_map.mp hin
    exact (hparents sci' hsci').1 (hid ▸ List.mem_flatMap.mpr ⟨t,ht,List.mem_map_of_mem hsci⟩)
  · rw [List.mem_singleton.mp ht] at hsci
    exact ⟨_,happlied.spent sci hsci,rfl⟩

omit hparents in
theorem source_of_applied : ∀ id d, ms'.record id = some d →
    d.siacoinElement.stateElement = StateElement.unassigned ∨
      ∃ t ∈ txns ++ [txn], ∃ sci ∈ t.siacoinInputs, sci.parent = d.siacoinElement := by
  intro id d hd
  obtain ⟨sci,hsci,rfl,rfl⟩ | ⟨i,sco,-,-,rfl⟩ | ⟨-,hrecord⟩ := happlied.record_cases hd
  · exact .inr ⟨txn,List.mem_append_right _ (List.mem_singleton.mpr rfl),sci,hsci,rfl⟩
  · exact .inl rfl
  · obtain hfresh | ⟨t,ht,hrest⟩ := h.source id d hrecord
    · exact .inl hfresh
    · exact .inr ⟨t,List.mem_append_left _ ht,hrest⟩

omit happlied hparents in
include hfresh in
theorem coins_nodup_of_fresh
    (hdistinct : ∀ i < txn.siacoinOutputs.length, ∀ j < txn.siacoinOutputs.length,
      siacoinOutputID c (txn.id c) i = siacoinOutputID c (txn.id c) j → i = j) :
    ((coins ++ txn.coins c s.childHeight).map Coin.id).Nodup := by
  rw [List.map_append]
  refine List.nodup_append.mpr ⟨h.coins_nodup,?_,?_⟩
  · rw [List.nodup_iff_injective_getElem]
    rintro ⟨i,hi⟩ ⟨j,hj⟩ heq
    simp only [V2Transaction.coins,List.length_map,List.length_mapIdx] at hi hj
    simp only [V2Transaction.coins,List.getElem_map,List.getElem_mapIdx] at heq
    exact Fin.ext (hdistinct i hi j hj heq)
  · intro a ha b hb heq
    obtain ⟨k,hk,rfl⟩ := List.mem_map.mp ha
    obtain ⟨k',hk',rfl⟩ := List.mem_map.mp hb
    obtain ⟨i,sco,hi,rfl⟩ := mem_coins.mp hk'
    obtain ⟨d,hd,-,-⟩ := h.listed k hk
    have hnone := (hfresh i (List.getElem?_eq_some_iff.mp hi).1).2
    rw [heq] at hd
    exact absurd (hd.symm.trans hnone) (by simp)

end Step

/-- An accepted transfer is applied without a panic and keeps the ledger of the block. -/
theorem transfer {genesis : Transaction}
    (hinj : Set.InjOn c.sum256 S) (hledger : Ledger c S genesis created unspent consumed bids)
    (h : BlockLedger s created unspent txns (coinsOf c s.childHeight txns) ms) (hids : ∀ t ∈ txns, Identified c S t)
    (hid : Identified c S txn) (haccepted : TransferAccepted c ms txn)
    (hmember : ∀ sci ∈ txn.siacoinInputs, sci.parent.stateElement.leafIndex ≠ unassignedLeafIndex →
      s.elements.containsUnspentSiacoinElement c sci.parent = true → sci.parent.coin ∈ unspent) :
    (∀ sci ∈ txn.siacoinInputs, Parent unspent ms sci) ∧
      ∃ ms', ms.applyV2Transaction c txn = .ok ms' ∧ TransferApplied c ms ms' txn ∧
        BlockLedger s created unspent (txns ++ [txn]) (coinsOf c s.childHeight (txns ++ [txn])) ms' := by
  have hlen : txn.siacoinInputs.length < 2^64 := lt_of_le_of_lt haccepted.inputs_le (by norm_num)
  have hparents : ∀ sci ∈ txn.siacoinInputs, sci.parentID ∉ inputIDs txns ∧ Parent unspent ms sci := fun sci hsci =>
    h.parent hledger.unspent_created (haccepted.inputs sci hsci) (hmember sci hsci)
  have hfresh := fun i hi => outputs_fresh hinj hledger h hids hid hlen haccepted.inputs_ne hparents (i := i) hi
  have hdistinct : ∀ i < txn.siacoinOutputs.length, ∀ j < txn.siacoinOutputs.length,
      siacoinOutputID c (txn.id c) i = siacoinOutputID c (txn.id c) j → i = j := by
    intro i hi j hj heq
    have hle := haccepted.outputs_le
    obtain ⟨-,hindex⟩ := siacoinOutputPreimage_inj (hinj (hid.2 i hi) (hid.2 j hj) heq)
    exact length_eq_of_encode (by omega) (by omega) hindex
  -- a fresh ID is not the ID of a parent, which is on the ledger or in the records
  have hapart : ∀ i < txn.siacoinOutputs.length, siacoinOutputID c (txn.id c) i ∉ txn.inputIDs := by
    intro i hi hmem
    obtain ⟨sci,hsci,heq⟩ := List.mem_map.mp hmem
    obtain ⟨hnew,hnone⟩ := hfresh i hi
    cases (hparents sci hsci).2 with
    | old _ hcoin _ => exact hnew (heq ▸ List.mem_map_of_mem (hledger.unspent_created _ hcoin))
    | new d hrecord _ _ _ _ => exact absurd (hrecord.symm.trans (heq ▸ hnone)) (by simp)
  obtain ⟨ms',happly,happlied⟩ := transferApplied h.keyed haccepted.supported haccepted.distinct hdistinct
    fun i hi => ⟨(hfresh i hi).2,hapart i hi⟩
  refine ⟨fun sci hsci => (hparents sci hsci).2,ms',happly,happlied,?_⟩
  rw [coinsOf_snoc]
  refine ⟨happlied.same.base.trans h.base,happlied.keyed,?_,?_,?_,?_,spent_of_applied h happlied hparents hfresh,
    old_of_applied h happlied hparents,new_of_applied h happlied hparents hfresh,
    listed_of_applied h happlied hparents hfresh,presented_of_applied h happlied hparents hfresh,
    source_of_applied h happlied,coins_nodup_of_fresh h hfresh hdistinct⟩
  · intro t ht
    rcases List.mem_append.mp ht with ht | ht
    · exact h.short t ht
    · rw [List.mem_singleton.mp ht]
      exact hlen
  · intro t ht
    rcases List.mem_append.mp ht with ht | ht
    · exact h.funded t ht
    · rw [List.mem_singleton.mp ht]
      exact fun _ => haccepted.inputs_ne
  · rw [inputIDs_snoc]
    refine List.nodup_append.mpr ⟨h.consumed_nodup,haccepted.distinct,?_⟩
    intro a ha b hb heq
    obtain ⟨sci,hsci,rfl⟩ := List.mem_map.mp hb
    exact (hparents sci hsci).1 (heq ▸ ha)
  · intro id
    rw [inputIDs_snoc,List.mem_append,happlied.spends,h.spends]

theorem marker (h : BlockLedger s created unspent txns coins ms) (hmarker : IsMarker txn) :
    ∃ ms', ms.applyV2Transaction c txn = .ok ms' ∧ ms'.sces = ms.sces ∧
      BlockLedger s created unspent (txns ++ [txn]) (coins ++ txn.coins c s.childHeight) ms' := by
  have hin : txn.inputIDs = [] := by rw [V2Transaction.inputIDs,hmarker.inputs,List.map_nil]
  have hout : txn.coins c s.childHeight = [] := by rw [V2Transaction.coins,hmarker.outputs,List.mapIdx_nil]
  obtain ⟨proved,hnote⟩ := ms.noteCanaryProof_eq txn
  refine ⟨{ ms with qdayProved := proved },?_,rfl,?_⟩
  · rw [MidState.applyV2Transaction_of_supported hmarker.supported,hmarker.inputs,hmarker.outputs,hnote]
    rfl
  · refine ⟨h.base,h.keyed,?_,?_,?_,?_,?_,h.old,?_,?_,?_,?_,?_⟩
    · intro t ht
      rcases List.mem_append.mp ht with ht | ht
      · exact h.short t ht
      · rw [List.mem_singleton.mp ht,hmarker.inputs]
        exact Nat.two_pow_pos 64
    · intro t ht
      rcases List.mem_append.mp ht with ht | ht
      · exact h.funded t ht
      · rw [List.mem_singleton.mp ht]
        exact fun hne => absurd hmarker.outputs hne
    · rw [inputIDs_snoc,hin,List.append_nil]
      exact h.consumed_nodup
    · rw [inputIDs_snoc,hin,List.append_nil]
      exact h.spends
    · rw [inputIDs_snoc,hin,List.append_nil]
      exact h.spent
    · rw [hout,List.append_nil]
      exact h.new
    · rw [hout,List.append_nil]
      exact h.listed
    · intro t ht sci hsci
      rcases List.mem_append.mp ht with ht | ht
      · exact h.presented t ht sci hsci
      · rw [List.mem_singleton.mp ht,hmarker.inputs] at hsci
        cases hsci
    · intro id d hd
      obtain hfresh | ⟨t,ht,hrest⟩ := h.source id d hd
      · exact .inl hfresh
      · exact .inr ⟨t,List.mem_append_left _ ht,hrest⟩
    · rw [hout,List.append_nil]
      exact h.coins_nodup

theorem create (h : BlockLedger s created unspent txns coins ms) (k : Coin) (hnew : k.id ∉ created.map Coin.id)
    (hnone : ms.record k.id = none) :
    ∃ ms', ms.createSiacoinElementAt k.maturityHeight k.id k.output = .ok ms' ∧
      (∀ w, ms'.total w = ms.total w + w (MidState.freshDiff k.maturityHeight k.id k.output)) ∧
      MidState.SameBesides ms ms' ∧ BlockLedger s created unspent txns (coins ++ [k]) ms' := by
  obtain ⟨ms',hcreate,hrec,hspends⟩ := h.keyed.createSiacoinElementAt k.maturityHeight k.id k.output
  have hdiff : ms.createdDiff k.maturityHeight k.id k.output = MidState.freshDiff k.maturityHeight k.id k.output := by
    rw [MidState.createdDiff,hnone]
    rfl
  rw [hdiff] at hrec
  -- the record of another ID is as before
  have hcases : ∀ id d, ms'.record id = some d →
      (id = k.id ∧ d = MidState.freshDiff k.maturityHeight k.id k.output) ∨ (id ≠ k.id ∧ ms.record id = some d) := by
    intro id d hd
    rw [hrec.record_eq] at hd
    by_cases hid : id = k.id
    · rw [hid,Function.update_self] at hd
      exact .inl ⟨hid,(Option.some.inj hd).symm⟩
    · rw [Function.update_of_ne hid] at hd
      exact .inr ⟨hid,hd⟩
  have hkept : ∀ id d, ms.record id = some d → ms'.record id = some d := by
    intro id d hd
    rw [hrec.record_eq,Function.update_of_ne,hd]
    rintro rfl
    exact absurd (hd.symm.trans hnone) (by simp)
  refine ⟨ms',hcreate,fun w => ?_,hrec.same,hrec.same.base.trans h.base,hrec.keyed,h.short,h.funded,
    h.consumed_nodup,?_,?_,?_,?_,?_,?_,?_,?_⟩
  · rw [hrec.total_eq,hnone,Option.elim_none]
    omega
  · rw [hspends]
    exact h.spends
  · intro id
    constructor
    · intro hid
      obtain ⟨d,hd,hspent⟩ := (h.spent id).mp hid
      exact ⟨d,hkept id d hd,hspent⟩
    · rintro ⟨d,hd,hspent⟩
      obtain ⟨-,rfl⟩ | ⟨-,hd⟩ := hcases id d hd
      · cases hspent
      · exact (h.spent id).mpr ⟨d,hd,hspent⟩
  · intro id d hd hold
    obtain ⟨-,rfl⟩ | ⟨-,hd⟩ := hcases id d hd
    · cases hold
    · exact h.old id d hd hold
  · intro id d hd hcreated
    obtain ⟨rfl,rfl⟩ | ⟨-,hd⟩ := hcases id d hd
    · exact ⟨hnew,rfl,List.mem_append_right _ (List.mem_singleton.mpr rfl)⟩
    · obtain ⟨hid,hleaf,hcoin⟩ := h.new id d hd hcreated
      exact ⟨hid,hleaf,List.mem_append_left _ hcoin⟩
  · intro x hx
    rcases List.mem_append.mp hx with hx | hx
    · obtain ⟨d,hd,hrest⟩ := h.listed x hx
      exact ⟨d,hkept _ d hd,hrest⟩
    · obtain rfl := List.mem_singleton.mp hx
      exact ⟨_,by rw [hrec.record_eq,Function.update_self],rfl,rfl⟩
  · intro t ht sci hsci
    obtain ⟨d,hd,helement⟩ := h.presented t ht sci hsci
    exact ⟨d,hkept _ d hd,helement⟩
  · intro id d hd
    obtain ⟨-,rfl⟩ | ⟨-,hd⟩ := hcases id d hd
    · exact .inl rfl
    · exact h.source id d hd
  · rw [List.map_append,List.map_singleton]
    refine List.nodup_append.mpr ⟨h.coins_nodup,List.nodup_singleton _,?_⟩
    intro a ha b hb heq
    obtain ⟨x,hx,rfl⟩ := List.mem_map.mp ha
    obtain ⟨d,hd,-⟩ := h.listed x hx
    rw [heq,List.mem_singleton.mp hb] at hd
    exact absurd (hd.symm.trans hnone) (by simp)

end BlockLedger

end QdayNode
