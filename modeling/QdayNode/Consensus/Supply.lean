import QdayNode.Consensus.Chain

/-!
# Supply

On every chain of valid blocks outputs are created once and spent at most once, as they
were created, and the value of what is unspent grows by no more than the block rewards.
-/
namespace QdayNode
open ByteString Outcome

section Gain

variable {c : Crypto} {m : QdayManifest} {S : Set Bytes} {target : State → Block → Time} {blocks : List Block} {b : Block}
  {ch ch' : Chain}

theorem Chain.Valid.gain (hideal : IdealOn c.sum256 default S) (h : Chain.Valid c m S blocks ch)
    (hext : ch.extend c target b = .ok ch') (hS : ∀ x ∈ ch'.messages, x ∈ S) {v : Coin → ℕ}
    (hv : Valuation ch.state v) :
    (ch'.unspent.map v).sum ≤ (ch.unspent.map v).sum + ch.state.blockReward.toNat := by
  obtain ⟨hvalid,s,au,ms,out,ha,rfl⟩ := Chain.extend_inv hext
  have hstep := (h.after hideal hvalid ha hS).2
  have hsum : (((ch.after c b s ms.sces).unspent.map v).sum : ℤ) = (ch.unspent.map v).sum +
      ms.total (SiacoinElementDiff.balance v) := sum_unspentAfter h.ledger hstep.records v
  have hgain := hstep.gain v hv
  omega

theorem Chain.Valid.blockReward (h : Chain.Valid c m S blocks ch) (hshort : blocks.length + 1 < 2^64) :
    ch.state.blockReward.toNat =
      if blocks.length < m.network.qday.miningBlocks.toNat then m.network.qday.reward.toNat else 0 := by
  have hheight : ch.state.childHeight.toNat = blocks.length + 1 := by
    rw [h.childHeight.1,UInt64.toNat_ofNat_of_lt' hshort]
  have hnonzero : ch.state.childHeight ≠ 0 := by
    intro hzero
    rw [hzero,UInt64.toNat_zero] at hheight
    omega
  rw [State.blockReward,h.network]
  by_cases hlt : blocks.length < m.network.qday.miningBlocks.toNat
  · have hle : ¬ ch.state.childHeight > m.network.qday.miningBlocks := by
      rw [gt_iff_lt,UInt64.lt_iff_toNat_lt,hheight]
      omega
    rw [if_neg (not_or.mpr ⟨hnonzero,hle⟩),if_pos hlt]
  · have hgt : ch.state.childHeight > m.network.qday.miningBlocks := by
      rw [gt_iff_lt,UInt64.lt_iff_toNat_lt,hheight]
      omega
    rw [if_pos (.inr hgt),if_neg hlt,Currency.toNat_zeroCurrency]

theorem Chain.Valid.genesis_sum (h : Chain.Valid c m S [] ch) :
    (ch.unspent.map Coin.nominal).sum ≤ m.network.qday.premineAmount.toNat := by
  have hmem : ∀ k ∈ ch.unspent, k = m.premineCoin c := fun k hk =>
    List.mem_singleton.mp (h.ledger.unspent_created k hk)
  have hnodup := h.ledger.unspent_nodup
  cases hunspent : ch.unspent with
  | nil => exact Nat.zero_le _
  | cons k rest =>
    rw [hunspent,List.forall_mem_cons] at hmem
    rw [hunspent,List.map_cons,List.nodup_cons] at hnodup
    cases rest with
    | nil =>
      rw [hmem.1,List.map_singleton,List.sum_singleton,Coin.nominal]
      exact Nat.le_refl m.network.qday.premineAmount.toNat
    | cons k' rest =>
      rw [List.forall_mem_cons] at hmem
      refine absurd ?_ hnodup.1
      rw [hmem.1,hmem.2.1]
      exact List.mem_cons_self

theorem runChain_supply (hp : DecayParams m.network.qday) (hideal : IdealOn c.sum256 default S)
    (hrun : runChain c target m blocks = .ok ch) (hS : ∀ x ∈ ch.messages, x ∈ S) :
    (ch.unspent.map Coin.nominal).sum ≤ m.network.qday.premineAmount.toNat +
      m.network.qday.reward.toNat * min blocks.length m.network.qday.miningBlocks.toNat := by
  have hboth : Chain.Valid c m S blocks ch ∧ (ch.unspent.map Coin.nominal).sum ≤
      m.network.qday.premineAmount.toNat +
        m.network.qday.reward.toNat * min blocks.length m.network.qday.miningBlocks.toNat := by
    refine runChain_induct (P := fun blocks ch => Chain.Valid c m S blocks ch ∧ (ch.unspent.map Coin.nominal).sum ≤
      m.network.qday.premineAmount.toNat +
        m.network.qday.reward.toNat * min blocks.length m.network.qday.miningBlocks.toNat) ?_ ?_ hrun hS
    · intro ch hchain hS
      have hvalid := genesis_valid hideal hchain hS
      exact ⟨hvalid,le_add_right hvalid.genesis_sum⟩
    · intro blocks b ch ch' _ h hext hS
      obtain ⟨hvalid,hsum⟩ := h
      have hvalid' := hvalid.extend hideal hext hS
      have hgain := hvalid.gain hideal hext hS (valuation_nominal (hvalid.network ▸ hp))
      have hshort := hvalid'.short
      rw [List.length_append,List.length_singleton] at hshort
      rw [hvalid.blockReward hshort] at hgain
      refine ⟨hvalid',?_⟩
      rw [List.length_append,List.length_singleton]
      split_ifs at hgain with hlt
      · have hmin : min (blocks.length + 1) m.network.qday.miningBlocks.toNat =
            min blocks.length m.network.qday.miningBlocks.toNat + 1 := by omega
        rw [hmin,Nat.mul_succ]
        omega
      · have hmin : min (blocks.length + 1) m.network.qday.miningBlocks.toNat =
            min blocks.length m.network.qday.miningBlocks.toNat := by omega
        rw [hmin]
        omega
  exact hboth.2

end Gain

theorem sampleRun_ideal : ∃ b ch, runChain sampleCrypto (fun _ _ => default) sampleManifest [b] = .ok ch ∧
    IdealOn sampleCrypto.sum256 default {x | x ∈ ch.messages} ∧ ch.unspent.map Coin.nominal = [90, 805] ∧
      inputIDs b.v2Transactions = [samplePremine.id, (sampleEphemeral []).id] := by
  obtain ⟨⟨b,ch⟩,hrun,hcheck⟩ := exists_of_holds (x := sampleRun [])
    (p := fun r => decide ((r.2.messages.dedup.map sampleCrypto.sum256).Nodup ∧
      (∀ x ∈ r.2.messages, sampleCrypto.sum256 x ≠ default) ∧ r.2.unspent.map Coin.nominal = [90,805] ∧
      inputIDs r.1.v2Transactions = [samplePremine.id,(sampleEphemeral []).id]))
    (by decide +kernel)
  obtain ⟨hnodup,hne,hrest⟩ := of_decide_eq_true hcheck
  simp only [sampleRun,bind_eq_ok,pure_eq_ok,Prod.mk.injEq] at hrun
  obtain ⟨b',-,ch',hrun,rfl,rfl⟩ := hrun
  exact ⟨b',ch',hrun,idealOn_of_nodup hnodup hne,hrest⟩

section Chains

variable (c : Crypto) (target : State → Block → Time) (m : QdayManifest) (blocks : List Block) (ch : Chain)

/-- The nominal value of the unspent outputs is bounded by the premine and the rewards of the blocks so
far, and no block raises the spendable value of the unspent outputs by more than its reward. -/
theorem supply_bounded (hvalid : m.network.qday.validate c = .ok ()) (hrun : runChain c target m blocks = .ok ch)
    (hideal : IdealOn c.sum256 default {x | x ∈ ch.messages}) :
    (ch.unspent.map Coin.nominal).sum ≤ m.network.qday.premineAmount.toNat +
        m.network.qday.reward.toNat * min blocks.length m.network.qday.miningBlocks.toNat ∧
      ∀ pre b post, blocks = pre ++ b :: post → ∃ before after, runChain c target m pre = .ok before ∧
        before.extend c target b = .ok after ∧ before.state.childHeight = UInt64.ofNat (pre.length + 1) ∧
        (∀ k : Coin, ∃ r, before.state.qdayValue k.output.value k.maturityHeight before.state.childHeight = .ok r ∧
          before.state.worth before.state.childHeight k = r.toNat) ∧
        (after.unspent.map (before.state.worth before.state.childHeight)).sum ≤
          (before.unspent.map (before.state.worth before.state.childHeight)).sum + before.state.blockReward.toNat := by
  have hp := decayParams_of_validate hvalid
  refine ⟨runChain_supply hp hideal hrun fun x hx => hx,?_⟩
  rintro pre b post rfl
  obtain ⟨before,after,hbefore,hext,hsub⟩ := runChain_split hrun
  have hchain := runChain_valid hideal hbefore fun x hx => hsub x (Chain.extend_messages hext x hx)
  have hpbefore : DecayParams before.state.network.qday := hchain.network ▸ hp
  refine ⟨before,after,hbefore,hext,hchain.childHeight.1,fun k => ?_,
    hchain.gain hideal hext hsub (valuation_worth hpbefore)⟩
  obtain ⟨r,hr,-⟩ := qdayValue_returns hpbefore k.output.value k.maturityHeight before.state.childHeight
  exact ⟨r,hr,by rw [State.worth,hr]⟩

theorem supply_bounded_sample : ∃ b ch, runChain sampleCrypto (fun _ _ => default) sampleManifest [b] = .ok ch ∧
    ch.unspent.map Coin.nominal = [90, 805] ∧ (ch.unspent.map Coin.nominal).sum ≤
      sampleNetwork.qday.premineAmount.toNat + sampleNetwork.qday.reward.toNat * min 1 1000 := by
  obtain ⟨b,ch,hrun,hideal,hunspent,-⟩ := sampleRun_ideal
  have hvalid : sampleManifest.network.qday.validate sampleCrypto = .ok () := by decide +kernel
  exact ⟨b,ch,hrun,hunspent,(supply_bounded _ _ _ _ ch hvalid hrun hideal).1⟩

/-- On a chain of valid blocks every input spends an output created before it on the same chain, as it
was created, and no output is spent twice. -/
theorem inputs_spend_created_once (hrun : runChain c target m blocks = .ok ch)
    (hideal : IdealOn c.sum256 default {x | x ∈ ch.messages}) :
    (∀ i b, blocks[i]? = some b → ∀ j txn, b.v2Transactions[j]? = some txn → ∀ sci ∈ txn.siacoinInputs,
      sci.parent.coin ∈ createdCoins c m (blocks.take i) ++
        coinsOf c (UInt64.ofNat (i + 1)) (b.v2Transactions.take j)) ∧
      (inputIDs (blocks.flatMap Block.v2Transactions)).Nodup := by
  refine ⟨?_,(runChain_valid hideal hrun fun x hx => hx).ledger.consumed_nodup⟩
  intro i b hb j txn htxn sci hsci
  obtain ⟨hi,rfl⟩ := List.getElem?_eq_some_iff.mp hb
  rw [← List.take_append_drop i blocks,List.drop_eq_getElem_cons hi] at hrun
  obtain ⟨before,after,hbefore,hext,hsub⟩ := runChain_split hrun
  have hvalid := runChain_valid hideal hbefore fun x hx => hsub x (Chain.extend_messages hext x hx)
  obtain ⟨hblock,s,au,ms,out,ha,rfl⟩ := Chain.extend_inv hext
  have hstep := (hvalid.after hideal hblock ha hsub).2
  have hheight := hvalid.childHeight.1
  rw [List.length_take_of_le hi.le] at hheight
  rw [← hheight]
  exact hstep.spends j txn htxn sci hsci

theorem inputs_spend_created_once_sample :
    ∃ b ch, runChain sampleCrypto (fun _ _ => default) sampleManifest [b] = .ok ch ∧
      inputIDs b.v2Transactions = [samplePremine.id, (sampleEphemeral []).id] ∧
      (∀ j txn, b.v2Transactions[j]? = some txn → ∀ sci ∈ txn.siacoinInputs,
        sci.parent.coin ∈ sampleManifest.premineCoin sampleCrypto :: coinsOf sampleCrypto 1 (b.v2Transactions.take j)) ∧
      (inputIDs b.v2Transactions).Nodup := by
  obtain ⟨b,ch,hrun,hideal,-,hinputs⟩ := sampleRun_ideal
  obtain ⟨hcreated,honce⟩ := inputs_spend_created_once _ _ _ _ ch hrun hideal
  refine ⟨b,ch,hrun,hinputs,hcreated 0 b rfl,?_⟩
  rwa [List.flatMap_singleton] at honce

end Chains

end QdayNode
