import QdayNode.Consensus.BlockLeaves
import QdayNode.Manager.PoolWeight

/-!
# The transaction pool between the blocks

The pool keeps the mid state that its transactions lead to from the tip, and drops it
whenever the tip moves.  While it has one, validating the transactions in order from the
tip goes through and gives back the pool: its list, its index map and its weight.
-/
namespace QdayNode
open ByteString Procedure Outcome

variable {c : Crypto} {ms ms' : MidState} {txn : V2Transaction} {r : Revalidated} {txns : List V2Transaction}
  {cfg : Config} {m : QdayManifest} {S : Set Bytes} {M M' : Manager}

section Heights

/-- Every output that the transactions have created and not spent was born at the next height. -/
def Newborn (ms : MidState) : Prop :=
  ∀ id d, ms.record id = some d → d.created = true → ms.spends id = none → d.siacoinElement.maturityHeight = ms.base.childHeight

theorem newborn_newMidState (s : State) : Newborn (newMidState s) := by
  intro id d hd
  cases hd

theorem Newborn.spend (h : Newborn ms) (hk : ms.Keyed) (sce : SiacoinElement) (txid : TransactionID) :
    ∃ ms', ms.spendSiacoinElement sce txid = .ok ms' ∧ ms'.Keyed ∧ Newborn ms' ∧ ms'.base = ms.base := by
  obtain ⟨ms',hspend,hrec,hspends⟩ := hk.spendSiacoinElement sce txid
  refine ⟨ms',hspend,hrec.keyed,fun id d hd hcreated hunspent => ?_,hrec.same.base⟩
  rw [hrec.record_eq] at hd
  rw [hspends] at hunspent
  rw [hrec.same.base]
  by_cases hid : id = sce.id
  · rw [hid,Function.update_self] at hunspent
    cases hunspent
  · rw [Function.update_of_ne hid] at hd hunspent
    exact h id d hd hcreated hunspent

theorem Newborn.create (h : Newborn ms) (hk : ms.Keyed) (id : SiacoinOutputID) (sco : SiacoinOutput) :
    ∃ ms', ms.createSiacoinElement id sco = .ok ms' ∧ ms'.Keyed ∧ Newborn ms' ∧ ms'.base = ms.base := by
  obtain ⟨ms',hcreate,hrec,hspends⟩ := hk.createSiacoinElementAt ms.base.childHeight id sco
  refine ⟨ms',hcreate,hrec.keyed,fun id' d hd hcreated hunspent => ?_,hrec.same.base⟩
  rw [hrec.record_eq] at hd
  rw [hspends] at hunspent
  rw [hrec.same.base]
  by_cases hid : id' = id
  · rw [hid,Function.update_self] at hd
    rw [← Option.some.inj hd]
    rfl
  · rw [Function.update_of_ne hid] at hd
    exact h id' d hd hcreated hunspent

theorem Newborn.applyV2Transaction (h : Newborn ms) (hk : ms.Keyed) (hsupported : qdayUnsupported txn = false) :
    ∃ ms', ms.applyV2Transaction c txn = .ok ms' ∧ ms'.Keyed ∧ Newborn ms' ∧ ms'.base = ms.base := by
  rw [MidState.applyV2Transaction_of_supported hsupported]
  obtain ⟨proved,hnote⟩ := ms.noteCanaryProof_eq txn
  rw [hnote]
  obtain ⟨ms₁,hspends,hk₁,h₁,hbase₁⟩ := foldlM_induct
    (P := fun _ ms₁ => ms₁.Keyed ∧ Newborn ms₁ ∧ ms₁.base = ms.base)
    (f := fun ms sci => ms.spendSiacoinElement sci.parent (txn.id c)) (l := txn.siacoinInputs)
    (fun pre sci post ms₁ _ hpre => by
      obtain ⟨ms₂,hspend,hk₂,h₂,hbase⟩ := hpre.2.1.spend hpre.1 sci.parent (txn.id c)
      exact ⟨ms₂,hspend,hk₂,h₂,hbase.trans hpre.2.2⟩)
    (s := { ms with qdayProved := proved }) ⟨hk,h,rfl⟩
  obtain ⟨ms₂,hcreates,hk₂,h₂,hbase₂⟩ := foldIdx_induct
    (P := fun _ ms₂ => ms₂.Keyed ∧ Newborn ms₂ ∧ ms₂.base = ms.base)
    (f := fun i sco ms => ms.createSiacoinElement (siacoinOutputID c (txn.id c) i) sco) (l := txn.siacoinOutputs)
    (fun pre sco post ms₂ _ hpre => by
      obtain ⟨ms₃,hcreate,hk₃,h₃,hbase⟩ := hpre.2.1.create hpre.1 _ sco
      exact ⟨ms₃,hcreate,hk₃,h₃,hbase.trans hpre.2.2⟩)
    ⟨hk₁,h₁,hbase₁⟩
  exact ⟨ms₂,by rw [hspends,ok_bind,hcreates],hk₂,h₂,hbase₂⟩

theorem Newborn.heights (h : Newborn ms) (hvalid : validateV2Transaction c ms txn = .ok ()) :
    updateQdayEphemeralHeights [txn] ms.base.childHeight = [txn] := by
  have hinputs := (transfer_accepted hvalid).2.inputs
  have hsame : (txn.siacoinInputs.map fun sci => if sci.parent.stateElement.leafIndex = unassignedLeafIndex then
      { sci with parent.maturityHeight := ms.base.childHeight } else sci) = txn.siacoinInputs := by
    refine (List.map_congr_left fun sci hsci => ?_).trans (List.map_id _)
    split_ifs with hephemeral
    · have haccepted := hinputs sci hsci
      rcases haccepted.source with ⟨-,d,hd,hcreated,hcoin⟩ | ⟨hassigned,-⟩
      · have hheight := h _ d hd hcreated haccepted.unspent
        have hborn : sci.parent.maturityHeight = d.siacoinElement.maturityHeight := congrArg Coin.maturityHeight hcoin.symm
        rw [← hheight,← hborn]
        rfl
      · exact absurd hephemeral hassigned
    · rfl
  rw [updateQdayEphemeralHeights,List.map_singleton,hsame]

end Heights

section Built

/-- Validates transactions in order, each on what the ones before it lead to. -/
def validateInOrder (c : Crypto) (txns : List V2Transaction) (ms : MidState) : Outcome MidState :=
  txns.foldlM (fun ms txn => do
    validateV2Transaction c ms txn
    ms.applyV2Transaction c txn) ms

variable {tip : State} {r' : Revalidated}

def Revalidated.pool (r : Revalidated) : TxPool := ⟨r.txns, r.indices, some r.ms, r.weight⟩

/-- What validating one transaction after the other from the tip leads to. -/
inductive Built (c : Crypto) (tip : State) : Revalidated → Prop
  | start : Built c tip ⟨[], ∅, newMidState tip, 0⟩
  | push {r : Revalidated} {txn : V2Transaction} {ms : MidState} (h : Built c tip r) (hnew : r.indices.lookup (txn.id c) = none)
      (hvalid : validateV2Transaction c r.ms txn = .ok ()) (happly : r.ms.applyV2Transaction c txn = .ok ms) :
      Built c tip (r.push c ms txn)

theorem Revalidated.add_push (hnew : r.indices.lookup (txn.id c) = none)
    (hvalid : validateV2Transaction c r.ms txn = .ok ()) (happly : r.ms.applyV2Transaction c txn = .ok ms) :
    r.add c txn = .ok (r.push c ms txn) := by
  rw [Revalidated.add,if_neg (by rw [hnew]; decide),attempt_eq_some.mpr hvalid,ok_bind]
  simp only [happly]
  rfl

namespace Built

theorem add (h : Built c tip r) (hadd : r.add c txn = .ok r') : Built c tip r' := by
  rcases Revalidated.add_inv hadd with rfl | ⟨ms,hnew,hvalid,happly,rfl⟩
  · exact h
  · exact h.push hnew hvalid happly

theorem addAll (h : Built c tip r) (hfold : txns.foldlM (Revalidated.add c) r = .ok r') :
    Built c tip r' := by
  induction txns generalizing r with
  | nil =>
    obtain rfl := Except.ok.inj hfold
    exact h
  | cons txn txns ih =>
    rw [List.foldlM_cons,bind_eq_ok] at hfold
    obtain ⟨r₁,hadd,hfold⟩ := hfold
    exact ih (h.add hadd) hfold

theorem again (h : Built c tip r) : r.txns.foldlM (Revalidated.add c) ⟨[], ∅, newMidState tip, 0⟩ = .ok r := by
  induction h with
  | start => rfl
  | push _ hnew hvalid happly ih =>
    rw [Revalidated.push,List.foldlM_append,ih,ok_bind,List.foldlM_cons,Revalidated.add_push hnew hvalid happly]
    rfl

theorem midState (h : Built c tip r) : r.ms.Keyed ∧ Newborn r.ms ∧ r.ms.base = tip := by
  induction h with
  | start => exact ⟨RecordTable.keyed_empty _,newborn_newMidState tip,rfl⟩
  | push _ _ hvalid happly ih =>
    obtain ⟨hk,hnewborn,hbase⟩ := ih
    obtain ⟨ms',happly',hk',hnewborn',hbase'⟩ :=
      hnewborn.applyV2Transaction (c := c) hk (transfer_accepted hvalid).2.supported
    obtain rfl := Except.ok.inj (happly.symm.trans happly')
    exact ⟨hk',hnewborn',hbase'.trans hbase⟩

theorem heights (h : Built c tip r) : updateQdayEphemeralHeights r.txns (tip.index.height + 1) = r.txns := by
  induction h with
  | start => rfl
  | push h _ hvalid _ ih =>
    obtain ⟨-,hnewborn,hbase⟩ := h.midState
    have hlast := hnewborn.heights hvalid
    rw [hbase] at hlast
    rw [Revalidated.push,updateQdayEphemeralHeights,List.map_append]
    exact congrArg₂ _ ih hlast

/-- The index map has the position of every transaction, and nothing else. -/
theorem index (h : Built c tip r) (id : TransactionID) (i : ℕ) :
    r.indices.lookup id = some i ↔ ∃ txn, r.txns[i]? = some txn ∧ txn.id c = id := by
  induction h generalizing i with
  | start => simp
  | @push r txn ms h hnew hvalid happly ih =>
    rw [Revalidated.push]
    dsimp only
    by_cases hid : id = txn.id c
    · subst hid
      rw [AList.lookup_insert]
      constructor
      · rintro ⟨⟩
        exact ⟨txn,by simp,rfl⟩
      · rintro ⟨txn',hget,hid⟩
        rcases lt_trichotomy i r.txns.length with hlt | rfl | hgt
        · rw [List.getElem?_append_left hlt] at hget
          have hknown := (ih i).mpr ⟨txn',hget,hid⟩
          rw [hnew] at hknown
          cases hknown
        · rfl
        · rw [List.getElem?_eq_none (by simp; omega)] at hget
          cases hget
    · rw [AList.lookup_insert_ne hid,ih i]
      constructor
      · rintro ⟨txn',hget,hid'⟩
        exact ⟨txn',by rw [List.getElem?_append_left (List.getElem?_eq_some_iff.mp hget).1]; exact hget,hid'⟩
      · rintro ⟨txn',hget,rfl⟩
        rcases lt_trichotomy i r.txns.length with hlt | rfl | hgt
        · rw [List.getElem?_append_left hlt] at hget
          exact ⟨txn',hget,rfl⟩
        · simp only [List.getElem?_concat_length,Option.some.injEq] at hget
          exact absurd (congrArg (V2Transaction.id c) hget.symm) hid
        · rw [List.getElem?_eq_none (by simp; omega)] at hget
          cases hget

theorem nodup (h : Built c tip r) : (r.txns.map (V2Transaction.id c)).Nodup := by
  induction h with
  | start => exact List.nodup_nil
  | push h hnew _ _ ih =>
    rw [Revalidated.push,List.map_append,List.nodup_append]
    refine ⟨ih,List.nodup_singleton _,?_⟩
    intro id hid id' hid' heq
    obtain rfl : id' = _ := List.mem_singleton.mp hid'
    subst heq
    obtain ⟨txn',htxn',hsame⟩ := List.mem_map.mp hid
    obtain ⟨i,hi⟩ := List.mem_iff_getElem?.mp htxn'
    have hknown := (h.index _ i).mpr ⟨txn',hi,hsame⟩
    rw [hnew] at hknown
    cases hknown

theorem validates (h : Built c tip r) : validateInOrder c r.txns (newMidState tip) = .ok r.ms := by
  induction h with
  | start => rfl
  | push _ _ hvalid happly ih =>
    rw [Revalidated.push,validateInOrder,List.foldlM_append,← validateInOrder,ih,ok_bind,List.foldlM_cons,
      hvalid,ok_bind,happly]
    rfl

end Built

end Built

section Pool

variable {tip : State} {pool pool' : TxPool}

/-- The pool is what its transactions lead to from the tip. -/
def TxPool.Settled (c : Crypto) (tip : State) (pool : TxPool) : Prop :=
  ∃ r, Built c tip r ∧ r.pool.Same pool ∧ pool.ms = some r.ms

theorem TxPool.Same.push {start : TxPool} (h : start.Same pool) (ms : MidState) :
    (start.push c ms txn).Same (pool.push c ms txn) where
  v2txns := by rw [TxPool.push,TxPool.push,h.v2txns]
  indices := by
    intro id
    rw [TxPool.push,TxPool.push,h.v2txns]
    dsimp only
    by_cases hid : id = txn.id c
    · rw [hid,AList.lookup_insert,AList.lookup_insert]
    · rw [AList.lookup_insert_ne hid,AList.lookup_insert_ne hid,h.indices]
  weight := by rw [TxPool.push,TxPool.push,h.weight]

theorem TxPool.Settled.push {ms ms' : MidState} (h : pool.Settled c tip) (hms : pool.ms = some ms)
    (hnew : pool.indices.lookup (txn.id c) = none) (hvalid : validateV2Transaction c ms txn = .ok ())
    (happly : ms.applyV2Transaction c txn = .ok ms') : (pool.push c ms' txn).Settled c tip := by
  obtain ⟨r,hr,hsame,hsome⟩ := h
  obtain rfl := Option.some.inj (hms.symm.trans hsome)
  rw [hsame.indices] at hnew
  exact ⟨r.push c ms' txn,hr.push hnew hvalid happly,hsame.push ms',rfl⟩

theorem revalidatePool_settled (h : revalidatePool c tip pool = .ok pool') (hpool : pool.ms.isSome = true → pool.Settled c tip) :
    pool'.Settled c tip := by
  rw [revalidatePool] at h
  split_ifs at h with hkept
  · obtain rfl := Except.ok.inj h
    exact hpool hkept.1
  · simp only [bind_eq_ok,pure_eq_ok] at h
    obtain ⟨v2txns,-,r,hfold,rfl⟩ := h
    exact ⟨r,Built.start.addAll hfold,⟨rfl,fun _ => rfl,rfl⟩,rfl⟩

theorem revalidatePool_again (hr : Built c tip r) (hsame : r.pool.Same pool) (hms : pool.ms = none ∨ pool.ms = some r.ms)
    (hroom : pool.weight < txpoolMaxWeight) : ∃ pool', revalidatePool c tip pool = .ok pool' ∧ pool'.v2txns = pool.v2txns := by
  rw [revalidatePool]
  rcases hms with hnone | hsome
  · have hevict : evict pool = .ok r.txns := by
      rw [evict,if_neg (by rwa [ge_iff_le,UInt64.not_le]),hsame.v2txns]
      rfl
    rw [if_neg (by rw [hnone]; simp),hevict,ok_bind,hr.heights,hr.again,ok_bind]
    exact ⟨_,rfl,hsame.v2txns.symm⟩
  · rw [if_pos ⟨by rw [hsome]; rfl,hroom⟩]
    exact ⟨pool,rfl,rfl⟩

end Pool

section Runs

def Manager.Settled (cfg : Config) (M : Manager) : Prop := M.pool.ms.isSome = true → M.pool.Settled cfg.crypto M.tipState

theorem InStep.settled (h : InStep M M') (hM : M.Settled cfg) : M'.Settled cfg := by
  intro hsome
  rcases h with ⟨htip,hpool⟩ | hnone
  · rw [htip,hpool]
    exact hM (hpool ▸ hsome)
  · rw [hnone] at hsome
    cases hsome

theorem addTxn_settled (start : TxPool) (txn : V2Transaction) :
    Triple (Manager.Settled cfg) (Manager.addTxn cfg start txn) (fun _ => Manager.Settled cfg) (Manager.Settled cfg) := by
  intro M r M' hM hrun
  rcases Manager.addTxn_inv hrun with ⟨rfl,rfl⟩ | ⟨⟨msg,rfl⟩,rfl⟩ | ⟨ms,ms',hms,hnew,hvalid,happly,rfl,rfl⟩
  · exact hM
  · rintro ⟨⟩
  · exact fun _ => (hM (by rw [hms]; rfl)).push hms hnew hvalid happly

theorem addV2PoolTransactions_settled {basis : ChainIndex} {r : Except String Bool}
    (h : exec (Manager.addV2PoolTransactions cfg basis txns) M = .ok (r, M')) (hM : M.Settled cfg) : M'.Settled cfg := by
  obtain ⟨pool,hpool,hend⟩ := Manager.addV2PoolTransactions_inv h
  have hsettled : ({ M with pool } : Manager).Settled cfg := fun _ => revalidatePool_settled hpool hM
  rcases hend with rfl | ⟨updated,r₁,-,hloop,-⟩
  · exact hsettled
  · exact Triple.keeps (Triple.foldlM (I := fun _ _ => Manager.Settled cfg) (fun _ txn _ _ _ => addTxn_settled pool txn) ())
      hsettled hloop

theorem Event.settled {e : Event} {bl : List Block} {ch : Chain} {r : Except String Unit} (hat : M.At cfg m bl ch)
    (hset : Setting cfg.crypto m S M'.ingested) (he : Proper cfg M e) (hrun : exec (e.run cfg) M = .ok (r, M'))
    (hM : M.Settled cfg) : M'.Settled cfg := by
  cases e with
  | addBlocks blocks => exact (addBlocks_at hat hset he hrun).2.2.2.settled hM
  | addValidatedV2Blocks now blocks states => exact (addValidatedV2Blocks_at hat hset he hrun).2.settled hM
  | pruneBlocks height =>
    obtain ⟨-,rfl⟩ := ok_pair hrun
    exact hM
  | addV2PoolTransactions basis txns =>
    obtain ⟨r',hp⟩ := exec_discard hrun
    exact addV2PoolTransactions_settled hp hM
  | v2PoolTransactions =>
    obtain ⟨r',hp⟩ := exec_discard hrun
    obtain ⟨pool,hpool,-,rfl⟩ := Manager.v2PoolTransactions_inv hp
    exact fun _ => revalidatePool_settled hpool hM

theorem Reachable.settled (h : Reachable cfg m (Proper cfg) M) (hset : Setting cfg.crypto m S M.ingested) : M.Settled cfg := by
  induction h with
  | start hnew =>
    simp only [newManager,bind_eq_ok,Prod.exists,pure_eq_ok] at hnew
    obtain ⟨st,tip,-,rfl⟩ := hnew
    rintro ⟨⟩
  | step hM he hrun ih =>
    have hset₀ := hset.of_prefix (Event.ingested hrun)
    obtain ⟨bl,ch,hat⟩ := hM.at_end hset₀
    exact Event.settled hat hset he hrun (ih hset₀)

/-- The calls of a node whose sets fit into a machine. -/
def Machine (cfg : Config) (M : Manager) (e : Event) : Prop := Proper cfg M e ∧ e.Sized

end Runs

section Samples

def sampleSplit : V2Transaction :=
  { sampleTransfer with siacoinOutputs := [⟨⟨50, 0⟩, sampleManifest.premine⟩, ⟨⟨50, 0⟩, sampleManifest.premine⟩] }

def sampleShare (i : ℕ) (value : UInt64) : V2Transaction where
  siacoinInputs := [⟨⟨siacoinOutputID sampleCrypto (sampleSplit.id sampleCrypto) i, ⟨unassignedLeafIndex, []⟩,
    ⟨⟨50, 0⟩, sampleManifest.premine⟩, 1⟩, sampleSpend⟩]
  siacoinOutputs := [⟨⟨value, 0⟩, sampleManifest.premine⟩]
  arbitraryData := sampleEnvelope

/-- A manager with a block gets two sets, made at the genesis block.  Of the second one the first member is known,
the next is new and the last spends what the pool spends already. -/
def samplePool : Outcome (Manager × Block × Manager × Except String Bool × Manager × Except String Bool × Manager) := do
  let (M, b, M₁) ← sampleAdded
  let (r₁, M₂) ← exec (Manager.addV2PoolTransactions sampleConfig M.tipState.index [sampleSplit, sampleShare 0 45]) M₁
  let (r₂, M₃) ← exec (Manager.addV2PoolTransactions sampleConfig M.tipState.index
    [sampleSplit, sampleShare 1 45, sampleShare 0 44]) M₂
  return (M, b, M₁, r₁, M₂, r₂, M₃)

theorem samplePool_reachable {M₁ M₂ M₃ : Manager} {b : Block} {r₁ r₂ : Except String Bool}
    (h : samplePool = .ok (M, b, M₁, r₁, M₂, r₂, M₃)) :
    Reachable sampleConfig sampleManifest (Machine sampleConfig) M₂ ∧
      (∃ S, Setting sampleCrypto sampleManifest S M₂.ingested) ∧
      exec (Manager.addV2PoolTransactions sampleConfig M.tipState.index
        [sampleSplit, sampleShare 1 45, sampleShare 0 44]) M₂ = .ok (r₂, M₃) := by
  simp only [samplePool,bind_eq_ok,pure_eq_ok,Prod.exists,Prod.mk.injEq] at h
  obtain ⟨M',b',M₁',hadded,r₁',M₂',hfirst,r₂',M₃',hsecond,rfl,rfl,rfl,rfl,rfl,rfl,rfl⟩ := h
  obtain ⟨hnew,⟨r,hrun⟩,-⟩ := sampleAdded_reachable hadded
  obtain ⟨S,N,c,N',hadded',-,hset⟩ := sampleAdded_setting
  cases hadded.symm.trans hadded'
  obtain ⟨r',hfirst'⟩ := exec_discard_of hfirst
  have hstart : Reachable sampleConfig sampleManifest (Unpruned sampleConfig) M' := Reachable.start hnew
  have hblock : Reachable sampleConfig sampleManifest (Machine sampleConfig) M₁' :=
    Reachable.step (e := .addBlocks [(sampleTime, b')]) (Reachable.start hnew) ⟨hstart.event_proper trivial,trivial⟩ hrun
  refine ⟨Reachable.step (e := .addV2PoolTransactions M'.tipState.index [sampleSplit,sampleShare 0 45]) hblock
    ⟨trivial,Nat.le_of_lt_succ (by norm_num)⟩ hfirst',⟨S,?_⟩,hsecond⟩
  rw [(addV2PoolTransactions_sameChain hfirst).ingested]
  exact hset

end Samples

section Queries

/-- In every run, the transactions that `V2PoolTransactions` returns have different IDs, every first part of
them validates in order at the tip, and the index map of the pool has the position of each and no other entry. -/
theorem v2PoolTransactions_in_order (h : Reachable cfg m (Proper cfg) M) (hset : Setting cfg.crypto m S M.ingested)
    {txns : List V2Transaction} (hrun : exec (Manager.v2PoolTransactions cfg) M = .ok (.ok txns, M')) :
    (txns.map (V2Transaction.id cfg.crypto)).Nodup ∧
      (∀ n, ∃ ms, validateInOrder cfg.crypto (txns.take n) (newMidState M'.tipState) = .ok ms) ∧
      M'.pool.v2txns = txns ∧
      ∀ id i, M'.pool.indices.lookup id = some i ↔ ∃ txn, txns[i]? = some txn ∧ txn.id cfg.crypto = id := by
  obtain ⟨pool,hpool,hr,rfl⟩ := Manager.v2PoolTransactions_inv hrun
  obtain rfl := Except.ok.inj hr
  obtain ⟨r,hbuilt,hsame,-⟩ := revalidatePool_settled hpool (h.settled hset)
  rw [hsame.v2txns]
  refine ⟨hbuilt.nodup,fun n => ?_,rfl,fun id i => ?_⟩
  · have hvalid := hbuilt.validates
    rw [← List.take_append_drop n r.txns,validateInOrder,List.foldlM_append,bind_eq_ok] at hvalid
    obtain ⟨ms,hms,-⟩ := hvalid
    exact ⟨ms,hms⟩
  · rw [hsame.indices]
    exact hbuilt.index id i

theorem v2PoolTransactions_in_order_sample : ∃ (M M' : Manager) (txns : List V2Transaction),
    exec (Manager.v2PoolTransactions sampleConfig) M = .ok (.ok txns, M') ∧ txns.length = 2 ∧
      (txns.map (V2Transaction.id sampleCrypto)).Nodup ∧
      (∀ n, ∃ ms, validateInOrder sampleCrypto (txns.take n) (newMidState M'.tipState) = .ok ms) ∧
      M'.pool.v2txns = txns ∧
      ∀ id i, M'.pool.indices.lookup id = some i ↔ ∃ txn, txns[i]? = some txn ∧ txn.id sampleCrypto = id := by
  obtain ⟨⟨⟨M,b,M₁,r₁,M₂,r₂,M₃⟩,r,M'⟩,hrun,hcheck⟩ := exists_of_holds
    (x := do
      let run ← samplePool
      let query ← exec (Manager.v2PoolTransactions sampleConfig) run.2.2.2.2.1
      return (run, query))
    (p := fun (_, r, _) => match r with
      | .ok txns => decide (txns.length = 2)
      | .error _ => false) (by decide +kernel)
  simp only [bind_eq_ok,pure_eq_ok,Prod.mk.injEq,Prod.exists] at hrun
  obtain ⟨M,b,M₁,r₁,M₂,r₂,M₃,hpool,r,M',hquery,⟨rfl,rfl,rfl,rfl,rfl,rfl,rfl⟩,rfl,rfl⟩ := hrun
  obtain ⟨hreach,⟨S,hset⟩,-⟩ := samplePool_reachable hpool
  cases r with
  | error msg => cases hcheck
  | ok txns => exact ⟨_,_,txns,hquery,of_decide_eq_true hcheck,
      v2PoolTransactions_in_order (hreach.mono fun _ _ he => he.1) hset hquery⟩

/-- After an error of `AddV2PoolTransactions` the pool is as the revalidation at its start has left it, and in every run the
next query returns its transactions. -/
theorem pool_after_error {basis : ChainIndex} {txns : List V2Transaction} {msg : String}
    (hrun : exec (Manager.addV2PoolTransactions cfg basis txns) M = .ok (.error msg, M')) :
    ∃ pool, revalidatePool cfg.crypto M.tipState M.pool = .ok pool ∧ pool.Same M'.pool ∧
      (Reachable cfg m (Machine cfg) M → Setting cfg.crypto m S M.ingested →
        ∃ M'', exec (Manager.v2PoolTransactions cfg) M' = .ok (.ok pool.v2txns, M'')) := by
  obtain ⟨pool,hpool,hend⟩ := Manager.addV2PoolTransactions_inv hrun
  have hends : pool.Same M'.pool ∧ M'.tipState = M.tipState ∧ (M'.pool.ms = none ∨ M'.pool.ms = pool.ms) := by
    rcases hend with rfl | ⟨updated,r₁,-,hloop,⟨-,hbad⟩ | ⟨msg',rfl,-⟩⟩
    · exact ⟨⟨rfl,fun _ => rfl,rfl⟩,rfl,.inr rfl⟩
    · cases hbad
    · obtain ⟨hsame,hnone⟩ := addTxns_adding pool updated _ _ _ rfl hloop
      exact ⟨hsame,(addV2PoolTransactions_sameChain hrun).tipState,.inl hnone⟩
  obtain ⟨hsame,htip,hms⟩ := hends
  refine ⟨pool,hpool,hsame,fun hreach hset => ?_⟩
  have hproper : Reachable cfg m (Proper cfg) M := hreach.mono fun _ _ he => he.1
  obtain ⟨r,hbuilt,hpoolSame,hpoolMs⟩ := revalidatePool_settled hpool (hproper.settled hset)
  obtain ⟨-,hroom⟩ := revalidatePool_weighed hpool (hreach.weighed fun _ _ he => he.2)
  have hsame' : r.pool.Same M'.pool :=
    ⟨hsame.v2txns.trans hpoolSame.v2txns,fun id => (hsame.indices id).trans (hpoolSame.indices id),
      hsame.weight.trans hpoolSame.weight⟩
  obtain ⟨pool',hagain,hlist⟩ := revalidatePool_again hbuilt hsame' (hpoolMs ▸ hms) (hsame.weight ▸ hroom)
  refine ⟨{ M' with pool := pool' },?_⟩
  rw [← htip] at hagain
  rw [← hsame.v2txns,← hlist]
  exact Manager.v2PoolTransactions_eq hagain

theorem pool_after_error_sample : ∃ (M M' M'' : Manager) (txns : List V2Transaction) (basis : ChainIndex) (msg : String)
    (pool : TxPool), exec (Manager.addV2PoolTransactions sampleConfig basis txns) M = .ok (.error msg, M') ∧
      pool.v2txns.length = 2 ∧ revalidatePool sampleCrypto M.tipState M.pool = .ok pool ∧ pool.Same M'.pool ∧
      exec (Manager.v2PoolTransactions sampleConfig) M' = .ok (.ok pool.v2txns, M'') := by
  obtain ⟨⟨M,b,M₁,r₁,M₂,r₂,M₃⟩,hrun,hcheck⟩ := exists_of_holds (x := samplePool)
    (p := fun (_, _, _, _, _, r₂, M₃) => !r₂.isOk && decide (M₃.pool.v2txns.length = 2)) (by decide +kernel)
  obtain ⟨hreach,⟨S,hset⟩,hsecond⟩ := samplePool_reachable hrun
  simp only [Bool.and_eq_true,decide_eq_true_eq] at hcheck
  cases r₂ with
  | ok known => cases hcheck.1
  | error msg =>
    obtain ⟨pool,hpool,hsame,hnext⟩ := pool_after_error hsecond
    obtain ⟨M'',hquery⟩ := hnext hreach hset
    exact ⟨_,_,M'',_,_,msg,pool,hsecond,hsame.v2txns ▸ hcheck.2,hpool,hsame,hquery⟩

end Queries

end QdayNode
