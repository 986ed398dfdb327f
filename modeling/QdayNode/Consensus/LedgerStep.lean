import QdayNode.Consensus.Value

/-!
# The ledger after a block

The store keeps the unspent outputs by deleting what a block reports as spent and
adding what it reports as created and unspent.  A valid block turns a ledger into a
ledger and raises the value of the unspent outputs by no more than its reward.
-/
namespace QdayNode
open ByteString

variable {c : Crypto} {S : Set Bytes} {s : State} {unspent : List Coin} {consumed : List SiacoinOutputID}
  {bids : List BlockID} {txns : List V2Transaction} {ms : MidState} {k : Coin} {bid : BlockID} {txn : V2Transaction}

/-- The unspent outputs after the diffs of a block; what is created and spent in one block is
skipped. -/
def unspentAfter (unspent : List Coin) (sces : List SiacoinElementDiff) : List Coin :=
  unspent.filter (fun k => ¬ ∃ d ∈ sces, d.spent = true ∧ d.siacoinElement.id = k.id) ++
    (sces.filter fun d => d.created && !d.spent).map fun d => d.siacoinElement.coin

def Block.coins (c : Crypto) (height maturityDelay : UInt64) (b : Block) : List Coin :=
  coinsOf c height b.v2Transactions ++
    b.minerPayouts.mapIdx fun i sco => ⟨minerOutputID c (b.id c) i, sco, height + maturityDelay⟩

section After

variable {genesis : Transaction} {created coins : List Coin}
  (hledger : Ledger c S genesis created unspent consumed bids) (h : BlockLedger s created unspent txns coins ms)

theorem sum_balance (v : Coin → ℕ) (sces : List SiacoinElementDiff) :
    (sces.map (SiacoinElementDiff.balance v)).sum =
      (((sces.filter fun d => d.created && !d.spent).map fun d => v d.siacoinElement.coin).sum : ℤ) -
        ((sces.filter fun d => !d.created).map fun d => v d.siacoinElement.coin).sum := by
  induction sces with
  | nil => simp
  | cons d sces ih =>
    rw [List.map_cons,List.sum_cons,ih]
    cases hc : d.created with
    | false =>
      simp only [SiacoinElementDiff.balance,hc,List.filter_cons,Bool.false_and,Bool.not_false,if_true,
        Bool.false_eq_true,if_false,List.map_cons,List.sum_cons,Nat.cast_add]
      omega
    | true =>
      cases hs : d.spent with
      | false =>
        simp only [SiacoinElementDiff.balance,hc,hs,List.filter_cons,Bool.and_self,Bool.not_false,
          Bool.not_true,if_true,Bool.false_eq_true,if_false,List.map_cons,List.sum_cons,
          Nat.cast_add]
        omega
      | true =>
        simp only [SiacoinElementDiff.balance,hc,hs,List.filter_cons,Bool.not_true,Bool.and_false,if_true,
          Bool.false_eq_true,if_false]
        omega

include h in
/-- The IDs consumed by the block are those of its spent records. -/
theorem BlockLedger.spent_iff (id : SiacoinOutputID) :
    (∃ d ∈ ms.sces, d.spent = true ∧ d.siacoinElement.id = id) ↔ id ∈ inputIDs txns := by
  rw [h.spent]
  constructor
  · rintro ⟨d,hd,hspent,hid⟩
    exact ⟨d,h.keyed.record_eq_some.mpr ⟨hd,hid⟩,hspent⟩
  · rintro ⟨d,hrecord,hspent⟩
    obtain ⟨hd,hid⟩ := h.keyed.record_eq_some.mp hrecord
    exact ⟨d,hd,hspent,hid⟩

include h hledger in
theorem removed_perm :
    (unspent.filter fun k => ∃ d ∈ ms.sces, d.spent = true ∧ d.siacoinElement.id = k.id).Perm
      ((ms.sces.filter fun d => !d.created).map fun d => d.siacoinElement.coin) := by
  have hids : ((ms.sces.filter fun d => !d.created).map fun d => d.siacoinElement.coin).Nodup := by
    refine List.Nodup.of_map Coin.id ?_
    rw [List.map_map]
    exact (h.keyed.nodup).sublist (List.filter_sublist.map _)
  refine (List.perm_ext_iff_of_nodup ((List.Nodup.of_map _ hledger.unspent_nodup).filter _) hids).mpr fun k => ?_
  simp only [List.mem_filter,decide_eq_true_iff,List.mem_map,Bool.not_eq_true']
  constructor
  · rintro ⟨hk,d,hd,-,hid⟩
    have hrecord := h.keyed.record_eq_some.mpr ⟨hd,hid⟩
    have hold : d.created = false := by
      cases hc : d.created with
      | false => rfl
      | true => exact absurd (List.mem_map_of_mem (hledger.unspent_created k hk)) (h.new _ d hrecord hc).1
    refine ⟨d,⟨hd,hold⟩,?_⟩
    exact List.inj_on_of_nodup_map hledger.unspent_nodup (h.old _ d hrecord hold).1 hk hid
  · rintro ⟨d,⟨hd,hold⟩,rfl⟩
    obtain ⟨hcoin,hspent,-⟩ := h.old _ d (h.keyed.record_eq_some.mpr ⟨hd,rfl⟩) hold
    exact ⟨hcoin,d,hd,hspent,rfl⟩

include h hledger in
/-- The value of the unspent outputs changes by the balance of the records. -/
theorem sum_unspentAfter (v : Coin → ℕ) :
    (((unspentAfter unspent ms.sces).map v).sum : ℤ) = (unspent.map v).sum + ms.total (SiacoinElementDiff.balance v) := by
  have hsplit := ((List.filter_append_perm
    (fun k => decide (∃ d ∈ ms.sces, d.spent = true ∧ d.siacoinElement.id = k.id)) unspent).map v).sum_eq
  have hremoved := ((removed_perm hledger h).map v).sum_eq
  rw [List.map_append,List.sum_append] at hsplit
  rw [MidState.total,sum_balance,unspentAfter,List.map_append,List.sum_append,List.map_map]
  rw [List.map_map] at hremoved
  simp only [decide_not,Nat.cast_add]
  simp only [Function.comp_def] at hremoved hsplit ⊢
  omega

include h hledger in
theorem unspentAfter_nodup : ((unspentAfter unspent ms.sces).map Coin.id).Nodup := by
  rw [unspentAfter,List.map_append]
  refine List.nodup_append.mpr ⟨?_,?_,?_⟩
  · exact hledger.unspent_nodup.sublist (List.filter_sublist.map _)
  · rw [List.map_map]
    exact (h.keyed.nodup).sublist (List.filter_sublist.map _)
  · intro a ha b hb heq
    obtain ⟨k,hk,rfl⟩ := List.mem_map.mp ha
    simp only [List.map_map,List.mem_map,List.mem_filter,Bool.and_eq_true,Function.comp_apply] at hb
    obtain ⟨d,⟨hd,hcreated,-⟩,rfl⟩ := hb
    have hold := List.mem_map_of_mem (f := Coin.id) (hledger.unspent_created k (List.mem_of_mem_filter hk))
    rw [heq] at hold
    exact (h.new _ d (h.keyed.record_eq_some.mpr ⟨hd,rfl⟩) hcreated).1 hold

theorem mem_unspentAfter {sces : List SiacoinElementDiff} (hk : k ∈ unspentAfter unspent sces) :
    (k ∈ unspent ∧ ¬ ∃ d ∈ sces, d.spent = true ∧ d.siacoinElement.id = k.id) ∨
      ∃ d ∈ sces, d.created = true ∧ d.spent = false ∧ d.siacoinElement.coin = k := by
  simp only [unspentAfter,List.mem_append,List.mem_filter,decide_eq_true_iff,List.mem_map,Bool.and_eq_true,
    Bool.not_eq_true'] at hk
  obtain hk | ⟨d,⟨hd,hcreated,hlive⟩,hcoin⟩ := hk
  · exact .inl hk
  · exact .inr ⟨d,hd,hcreated,hlive,hcoin⟩

include h hledger in
theorem consumed_new {id : SiacoinOutputID} (hid : id ∈ inputIDs txns) :
    id ∉ consumed ∧ id ∈ (created ++ coins).map Coin.id := by
  obtain ⟨d,hrecord,-⟩ := (h.spent id).mp hid
  have hkey : d.siacoinElement.coin.id = id := (h.keyed.record_eq_some.mp hrecord).2
  cases hc : d.created with
  | false =>
    have hcoin := (h.old _ d hrecord hc).1
    refine ⟨hkey ▸ hledger.unspent_live _ hcoin,?_⟩
    exact hkey ▸ List.mem_map_of_mem (List.mem_append_left _ (hledger.unspent_created _ hcoin))
  | true =>
    obtain ⟨hnew,-,hcoin⟩ := h.new _ d hrecord hc
    exact ⟨fun hmem => hnew (hledger.consumed_created id hmem),
      hkey ▸ List.mem_map_of_mem (List.mem_append_right _ hcoin)⟩

include h hledger in
/-- A valid block turns a ledger into a ledger. -/
theorem Ledger.after
    (horigin : ∀ k ∈ coins, Origin c S genesis (consumed ++ inputIDs txns) (bid :: bids) k.id) :
    Ledger c S genesis (created ++ coins) (unspentAfter unspent ms.sces) (consumed ++ inputIDs txns) (bid :: bids) := by
  refine ⟨?_,unspentAfter_nodup hledger h,?_,?_,?_,?_,?_⟩
  · rw [List.map_append]
    refine List.nodup_append.mpr ⟨hledger.created_nodup,h.coins_nodup,?_⟩
    intro a ha b hb heq
    obtain ⟨k,hk,rfl⟩ := List.mem_map.mp hb
    obtain ⟨d,hrecord,hcreated,-⟩ := h.listed k hk
    exact (h.new _ d hrecord hcreated).1 (heq ▸ ha)
  · refine List.nodup_append.mpr ⟨hledger.consumed_nodup,h.consumed_nodup,?_⟩
    intro a ha b hb heq
    exact (consumed_new hledger h hb).1 (heq ▸ ha)
  · intro k hk
    obtain ⟨hk,-⟩ | ⟨d,hd,hcreated,-,rfl⟩ := mem_unspentAfter hk
    · exact List.mem_append_left _ (hledger.unspent_created k hk)
    · exact List.mem_append_right _ (h.new _ d (h.keyed.record_eq_some.mpr ⟨hd,rfl⟩) hcreated).2.2
  · intro k hk
    rw [List.mem_append,not_or,← h.spent_iff]
    obtain ⟨hk,hlive⟩ | ⟨d,hd,hcreated,hlive,rfl⟩ := mem_unspentAfter hk
    · exact ⟨hledger.unspent_live k hk,hlive⟩
    · have hrecord := h.keyed.record_eq_some.mpr ⟨hd,rfl⟩
      refine ⟨fun hmem => (h.new _ d hrecord hcreated).1 (hledger.consumed_created _ hmem),?_⟩
      rintro ⟨d',hd',hspent,hid⟩
      have hrecord' := h.keyed.record_eq_some.mpr ⟨hd',hid⟩
      obtain rfl : d = d' := Option.some.inj (hrecord.symm.trans hrecord')
      rw [hlive] at hspent
      cases hspent
  · intro id hid
    rcases List.mem_append.mp hid with hid | hid
    · rw [List.map_append]
      exact List.mem_append_left _ (hledger.consumed_created id hid)
    · exact (consumed_new hledger h hid).2
  · intro k hk
    rcases List.mem_append.mp hk with hk | hk
    · exact (hledger.origin k hk).mono (fun x hx => List.mem_append_left _ hx) fun x hx => List.mem_cons_of_mem _ hx
    · exact horigin k hk

end After

section ValidBlock

variable {genesis : Transaction} {b : Block} {bs : V1BlockSupplement}
  {created coins : List Coin}

/-- Every input names an output created earlier, on the chain or by a transaction before its own. -/
def SpendsCreated (c : Crypto) (height : UInt64) (created : List Coin) (txns : List V2Transaction) : Prop :=
  ∀ i txn, txns[i]? = some txn → ∀ sci ∈ txn.siacoinInputs,
    sci.parent.coin ∈ created ++ coinsOf c height (txns.take i)

theorem SpendsCreated.snoc {height : UInt64}
    (h : SpendsCreated c height created txns)
    (hnew : ∀ sci ∈ txn.siacoinInputs, sci.parent.coin ∈ created ++ coinsOf c height txns) :
    SpendsCreated c height created (txns ++ [txn]) := by
  intro i t ht sci hsci
  by_cases hlt : i < txns.length
  · rw [List.getElem?_append_left hlt] at ht
    rw [List.take_append_of_le_length hlt.le]
    exact h i t ht sci hsci
  · have hlen := (List.getElem?_eq_some_iff.mp ht).1
    rw [List.length_append,List.length_singleton] at hlen
    obtain rfl : i = txns.length := by omega
    obtain rfl : txn = t := by simpa using ht
    rw [List.take_left]
    exact hnew sci hsci

/-- The transactions that a state has been taken through: ledger, balance and parents. -/
structure TransactionsLedger (c : Crypto) (s : State) (created unspent : List Coin) (txns : List V2Transaction)
    (ms : MidState) : Prop where
  records : BlockLedger s created unspent txns (coinsOf c s.childHeight txns) ms
  balance : ∀ v, Valuation s v → ms.total (SiacoinElementDiff.balance v) +
    (txns.map fun txn => txn.minerFee.toNat).sum ≤ 0
  spends : SpendsCreated c s.childHeight created txns

theorem TransactionsLedger.init (c : Crypto) (s : State) (created unspent : List Coin) :
    TransactionsLedger c s created unspent [] (newMidState s) := by
  refine ⟨BlockLedger.init s created unspent,?_,?_⟩
  · intro v _
    simp [MidState.total,newMidState]
  · intro i txn hi
    cases hi

/-- An admitted transaction is applied without a panic. -/
theorem TransactionsLedger.admit (hinj : Set.InjOn c.sum256 S)
    (hledger : Ledger c S genesis created unspent consumed bids) (h : TransactionsLedger c s created unspent txns ms)
    (hids : ∀ t ∈ txns ++ [txn], BlockLedger.Identified c S t)
    (hmember : ∀ sci ∈ txn.siacoinInputs, sci.parent.stateElement.leafIndex ≠ unassignedLeafIndex →
      s.elements.containsUnspentSiacoinElement c sci.parent = true → sci.parent.coin ∈ unspent)
    (hadmitted : Admitted c ms txn) :
    ∃ ms', ms.applyV2Transaction c txn = .ok ms' ∧ TransactionsLedger c s created unspent (txns ++ [txn]) ms' := by
  obtain ⟨hblock,hbalance,hspends⟩ := h
  obtain hmarker | htransfer := hadmitted
  · obtain ⟨ms',happly,hsces,hblock'⟩ := hblock.marker hmarker
    refine ⟨ms',happly,coinsOf_snoc c s.childHeight txns txn ▸ hblock',fun v hv => ?_,hspends.snoc ?_⟩
    · have := hbalance v hv
      rw [MidState.total] at this ⊢
      rw [hsces,List.map_append,List.sum_append,List.map_singleton,List.sum_singleton,hmarker.minerFee]
      exact this
    · rw [hmarker.inputs]
      intro sci hsci
      cases hsci
  · obtain ⟨hparents,ms',happly,happlied,hblock'⟩ := hblock.transfer hinj hledger
      (fun t ht => hids t (List.mem_append_left _ ht)) (hids txn (List.mem_append_right _ (List.mem_singleton.mpr rfl)))
      htransfer hmember
    refine ⟨ms',happly,hblock',fun v hv => ?_,hspends.snoc fun sci hsci => ?_⟩
    · have hbefore := hbalance v hv
      have hstep := transfer_balance hv hblock.base htransfer happlied hparents
      rw [List.map_append,List.sum_append,List.map_singleton,List.sum_singleton,Nat.cast_add]
      omega
    · rw [List.mem_append]
      cases hparents sci hsci with
      | old _ hcoin _ => exact .inl (hledger.unspent_created _ hcoin)
      | new d hrecord hcreated _ hcoin _ => exact .inr (hcoin ▸ (hblock.new _ d hrecord hcreated).2.2)

variable (hinj : Set.InjOn c.sum256 S) (hledger : Ledger c S genesis created unspent consumed bids)
  (hids : ∀ txn ∈ b.v2Transactions, BlockLedger.Identified c S txn)
  (hmember : ∀ txn ∈ b.v2Transactions, ∀ sci ∈ txn.siacoinInputs,
    sci.parent.stateElement.leafIndex ≠ unassignedLeafIndex →
    s.elements.containsUnspentSiacoinElement c sci.parent = true → sci.parent.coin ∈ unspent)
include hinj hledger hids hmember

theorem BlockAccepted.transactions_ledger (hb : BlockAccepted c s b bs) :
    ∃ ms, b.v2Transactions.foldlM (MidState.applyV2Transaction c) (newMidState s) = .ok ms ∧
      TransactionsLedger c s created unspent b.v2Transactions ms := by
  refine hb.induct (TransactionsLedger.init c s created unspent) fun pre txn post ms hsplit hpre hadmitted => ?_
  have hmem : ∀ t ∈ pre ++ [txn], t ∈ b.v2Transactions := by
    intro t ht
    rw [hsplit,List.append_cons]
    exact List.mem_append_left _ ht
  exact hpre.admit hinj hledger (fun t ht => hids t (hmem t ht))
    (hmember txn (hmem txn (List.mem_append_right _ (List.mem_singleton.mpr rfl)))) hadmitted

omit hledger hmember in
theorem payout_ne_output (hS : minerOutputPreimage bid 0 ∈ S) {height : UInt64}
    (hk : k ∈ coinsOf c height b.v2Transactions) : k.id ≠ minerOutputID c bid 0 := by
  intro heq
  obtain ⟨txn,htxn,hcoin⟩ := List.mem_flatMap.mp hk
  obtain ⟨i,sco,hi,rfl⟩ := mem_coins.mp hcoin
  have hmem := (hids txn htxn).2 i (List.getElem?_eq_some_iff.mp hi).1
  exact siacoinOutputPreimage_ne_miner _ _ _ _ (hinj hmem hS heq)

omit hinj hledger hmember in
theorem origin_of_block (h : BlockLedger s created unspent b.v2Transactions coins ms) (hS : minerOutputPreimage (b.id c) 0 ∈ S)
    {payout : SiacoinOutput} (hpayout : b.minerPayouts = [payout]) {height maturityDelay : UInt64}
    (hk : k ∈ b.coins c height maturityDelay) :
    Origin c S genesis (consumed ++ inputIDs b.v2Transactions) (b.id c :: bids) k.id := by
  rw [Block.coins,hpayout,List.mem_append] at hk
  rcases hk with hk | hk
  · obtain ⟨txn,htxn,hcoin⟩ := List.mem_flatMap.mp hk
    obtain ⟨i,sco,hi,rfl⟩ := mem_coins.mp hcoin
    have hlt := (List.getElem?_eq_some_iff.mp hi).1
    obtain ⟨sci,hsci⟩ := List.exists_mem_of_ne_nil _ (h.funded txn htxn (List.ne_nil_of_length_pos (by omega)))
    have hin : sci.parentID ∈ txn.inputIDs := List.mem_map_of_mem hsci
    exact .output txn i (hids txn htxn).1 ((hids txn htxn).2 i hlt) (h.short txn htxn) sci.parentID hin
      (List.mem_append_right _ (List.mem_flatMap.mpr ⟨txn,htxn,hin⟩))
  · obtain rfl := List.mem_singleton.mp hk
    exact .payout (b.id c) List.mem_cons_self hS

omit hmember in
theorem payout_fresh (hblock : BlockLedger s created unspent b.v2Transactions (coinsOf c s.childHeight b.v2Transactions) ms) (hbid : bid ∉ bids) (hS : minerOutputPreimage bid 0 ∈ S) :
    minerOutputID c bid 0 ∉ created.map Coin.id ∧ ms.record (minerOutputID c bid 0) = none := by
  have hnew : minerOutputID c bid 0 ∉ created.map Coin.id := by
    intro hmem
    obtain ⟨k,hk,heq⟩ := List.mem_map.mp hmem
    exact (hledger.origin k hk).ne_payout hinj hbid hS heq
  refine ⟨hnew,?_⟩
  cases hrecord : ms.record (minerOutputID c bid 0) with
  | none => rfl
  | some d =>
    exfalso
    have hkey : d.siacoinElement.coin.id = minerOutputID c bid 0 := (hblock.keyed.record_eq_some.mp hrecord).2
    cases hc : d.created with
    | false =>
      exact hnew (hkey ▸ List.mem_map_of_mem (hledger.unspent_created _ (hblock.old _ d hrecord hc).1))
    | true => exact payout_ne_output hinj hids hS (hblock.new _ d hrecord hc).2.2 hkey

/-- What a valid block does to a ledger. -/
structure LedgerStep (c : Crypto) (S : Set Bytes) (genesis : Transaction) (s : State) (b : Block)
    (created unspent : List Coin) (consumed : List SiacoinOutputID) (bids : List BlockID) (ms : MidState) : Prop where
  records : BlockLedger s created unspent b.v2Transactions (b.coins c s.childHeight s.network.maturityDelay) ms
  gain : ∀ v, Valuation s v → ms.total (SiacoinElementDiff.balance v) ≤ s.blockReward.toNat
  spends : SpendsCreated c s.childHeight created b.v2Transactions
  ledger : Ledger c S genesis (created ++ b.coins c s.childHeight s.network.maturityDelay)
    (unspentAfter unspent ms.sces) (consumed ++ inputIDs b.v2Transactions) (b.id c :: bids)

theorem BlockAccepted.ledgerStep (hb : BlockAccepted c s b bs) (hbid : b.id c ∉ bids)
    (hS : minerOutputPreimage (b.id c) 0 ∈ S) :
    ∃ ms, (newMidState s).applyBlock c b bs = .ok ms ∧
      LedgerStep c S genesis s b created unspent consumed bids ms := by
  obtain ⟨ms,hrun,hblock,hbalance,hspends⟩ := hb.transactions_ledger hinj hledger hids hmember
  obtain ⟨payout,hpayout,hvalue⟩ := hb.payout
  obtain ⟨hnew,hnone⟩ := payout_fresh hinj hledger hids hblock hbid hS
  obtain ⟨ms',hcreate,htotal,-,hblock'⟩ := hblock.create
    ⟨minerOutputID c (b.id c) 0,payout,s.childHeight + s.network.maturityDelay⟩ hnew hnone
  have hcoins : b.coins c s.childHeight s.network.maturityDelay = coinsOf c s.childHeight b.v2Transactions ++
      [⟨minerOutputID c (b.id c) 0,payout,s.childHeight + s.network.maturityDelay⟩] := by
    rw [Block.coins,hpayout]
    rfl
  rw [← hcoins] at hblock'
  refine ⟨ms',?_,hblock',fun v hv => ?_,hspends,?_⟩
  · rw [hb.applyBlock_eq hrun hpayout,MidState.createImmatureSiacoinElement,hblock.base]
    exact hcreate
  · rw [htotal]
    have hbefore := hbalance v hv
    have hle := hv.le_nominal ⟨minerOutputID c (b.id c) 0,payout,s.childHeight + s.network.maturityDelay⟩
    have hgain : SiacoinElementDiff.balance v (MidState.freshDiff (s.childHeight + s.network.maturityDelay)
        (minerOutputID c (b.id c) 0) payout) =
          (v ⟨minerOutputID c (b.id c) 0,payout,s.childHeight + s.network.maturityDelay⟩ : ℤ) := rfl
    rw [hgain]
    simp only at hle
    omega
  · exact Ledger.after hledger hblock' fun k hk => origin_of_block hids hblock' hS hpayout hk

end ValidBlock

end QdayNode
