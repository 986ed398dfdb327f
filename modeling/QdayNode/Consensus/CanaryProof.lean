import QdayNode.Consensus.Chain

/-!
# PQ Day is declared once

A canary proof sets `QdayHeight`, and from then on validation refuses every other
one.  The flag that carries the proof from the transaction to the end of the block is
followed through the block, and the height through the chain.
-/
namespace QdayNode
open ByteString Outcome

variable {ms : MidState} {txn : V2Transaction} {s : State} {b : Block}

def Block.canaryProofs (b : Block) : List V2Transaction := b.v2Transactions.filter V2Transaction.isCanaryProof

def canaryProofs (blocks : List Block) : List V2Transaction := blocks.flatMap Block.canaryProofs

@[simp] theorem canaryProofs_snoc (blocks : List Block) (b : Block) :
    canaryProofs (blocks ++ [b]) = canaryProofs blocks ++ b.canaryProofs := by
  simp [canaryProofs]

section Flag

variable {c : Crypto} {ms' : MidState}

namespace MidState

/-- The parts of the state inside a block that decide about a canary proof. -/
structure SameTrigger (ms ms' : MidState) : Prop where
  proved : ms'.qdayProved = ms.qdayProved
  base : ms'.base = ms.base

theorem SameTrigger.refl (ms : MidState) : SameTrigger ms ms := ⟨rfl,rfl⟩

theorem SameTrigger.trans {ms₁ ms₂ ms₃ : MidState} (h : SameTrigger ms₁ ms₂) (h' : SameTrigger ms₂ ms₃) :
    SameTrigger ms₁ ms₃ := ⟨h'.proved.trans h.proved,h'.base.trans h.base⟩

theorem recordSiacoinElement_trigger {id : SiacoinOutputID} {f : Option SiacoinElementDiff → SiacoinElementDiff}
    (h : ms.recordSiacoinElement id f = .ok ms') : SameTrigger ms ms' := by
  simp only [recordSiacoinElement,bind_eq_ok,pure_eq_ok] at h
  obtain ⟨_,-,rfl⟩ := h
  exact ⟨rfl,rfl⟩

theorem spendSiacoinElement_trigger {sce : SiacoinElement} {txid : TransactionID}
    (h : ms.spendSiacoinElement sce txid = .ok ms') : SameTrigger ms ms' := by
  simp only [spendSiacoinElement,bind_eq_ok,pure_eq_ok] at h
  obtain ⟨mid,hrec,rfl⟩ := h
  have hsame := recordSiacoinElement_trigger hrec
  exact ⟨hsame.proved,hsame.base⟩

theorem createAll_trigger (height : MidState → UInt64) {ids : ℕ → SiacoinOutputID} {outputs : List SiacoinOutput}
    (h : foldIdx (fun i sco ms => ms.createSiacoinElementAt (height ms) (ids i) sco) outputs 0 ms = .ok ms') :
    SameTrigger ms ms' := by
  refine foldIdx_keeps (P := fun _ => SameTrigger ms) ?_ h (SameTrigger.refl ms)
  intro pre sco post st st' _ hst hcreate
  exact hst.trans (recordSiacoinElement_trigger hcreate)

theorem noteCanaryProof_proved (ms : MidState) (txn : V2Transaction) :
    (ms.noteCanaryProof txn).qdayProved = (ms.qdayProved || txn.isCanaryProof) ∧
      (ms.noteCanaryProof txn).base = ms.base := by
  unfold noteCanaryProof V2Transaction.isCanaryProof
  cases parseQdayEnvelope txn.arbitraryData with
  | error e => simp
  | ok e =>
    by_cases hkind : e.kind = qdayCanaryProof
    · simp [hkind]
    · simp [hkind]

theorem applyV2Transaction_proved (hsupported : qdayUnsupported txn = false)
    (h : ms.applyV2Transaction c txn = .ok ms') :
    ms'.qdayProved = (ms.qdayProved || txn.isCanaryProof) ∧ ms'.base = ms.base := by
  simp only [applyV2Transaction,bind_eq_ok] at h
  obtain ⟨ms₁,hspend,ms₂,hcreate,hrest⟩ := h
  have hspent : SameTrigger (ms.noteCanaryProof txn) ms₁ := by
    refine foldlM_keeps (P := fun _ => SameTrigger (ms.noteCanaryProof txn)) ?_ hspend (SameTrigger.refl _)
    intro pre sci post st st' _ hst hs
    exact hst.trans (spendSiacoinElement_trigger hs)
  have hcreated := hspent.trans (createAll_trigger (fun ms => ms.base.childHeight) hcreate)
  obtain rfl : ms₂ = ms' := by
    rw [applyUnsupported_of_supported hsupported] at hrest
    exact Except.ok.inj hrest
  obtain ⟨hproved,hbase⟩ := noteCanaryProof_proved ms txn
  exact ⟨hcreated.proved.trans hproved,hcreated.base.trans hbase⟩

end MidState

theorem Admitted.firstProof (h : Admitted c ms txn) (hproof : txn.isCanaryProof = true) :
    ms.base.qdayHeight = 0 ∧ ms.qdayProved = false := by
  cases h with
  | inl hmarker =>
    obtain ⟨e,he,hkind⟩ := hmarker.kind
    rw [V2Transaction.isCanaryProof,he] at hproof
    exact absurd (of_decide_eq_true hproof) hkind
  | inr htransfer => exact htransfer.firstProof hproof

/-- The flag after the transactions `txns` of a block on `s`. -/
structure ProofNoted (s : State) (txns : List V2Transaction) (ms : MidState) : Prop where
  base : ms.base = s
  proved : ms.qdayProved = true ↔ txns.filter V2Transaction.isCanaryProof ≠ []
  once : (txns.filter V2Transaction.isCanaryProof).length ≤ 1
  declared : s.qdayHeight ≠ 0 → txns.filter V2Transaction.isCanaryProof = []

theorem ProofNoted.snoc {txns : List V2Transaction} (h : ProofNoted s txns ms)
    (ha : Admitted c ms txn) (happly : ms.applyV2Transaction c txn = .ok ms') : ProofNoted s (txns ++ [txn]) ms' := by
  obtain ⟨hproved,hbase⟩ := MidState.applyV2Transaction_proved ha.supported happly
  cases hproof : txn.isCanaryProof with
  | false =>
    have hsame : (txns ++ [txn]).filter V2Transaction.isCanaryProof = txns.filter V2Transaction.isCanaryProof := by
      simp [hproof]
    rw [hproof,Bool.or_false] at hproved
    exact ⟨hbase.trans h.base,by rw [hproved,hsame]; exact h.proved,by rw [hsame]; exact h.once,
      by rw [hsame]; exact h.declared⟩
  | true =>
    obtain ⟨hheight,hfirst⟩ := ha.firstProof hproof
    have hnone : txns.filter V2Transaction.isCanaryProof = [] := by
      by_contra hne
      rw [h.proved.mpr hne] at hfirst
      cases hfirst
    have honly : (txns ++ [txn]).filter V2Transaction.isCanaryProof = [txn] := by
      rw [List.filter_append,hnone]
      simp [hproof]
    rw [hproof,Bool.or_true] at hproved
    refine ⟨hbase.trans h.base,?_,?_,fun hset => ?_⟩
    · rw [hproved,honly]
      simp
    · rw [honly,List.length_singleton]
    · rw [h.base] at hheight
      exact absurd hheight hset

theorem BlockAccepted.proofNoted {bs : V1BlockSupplement} (hb : BlockAccepted c s b bs)
    (hms : (newMidState s).applyBlock c b bs = .ok ms) : ProofNoted s b.v2Transactions ms := by
  obtain ⟨htxns,hcontracts⟩ := hb.supplement
  simp only [MidState.applyBlock,htxns,hcontracts,hb.transactions,MidState.applyTransactions,ok_bind,
    List.foldlM_nil,bind_pure,bind_eq_ok] at hms
  obtain ⟨_,-,ms₁,hrun,hpayouts⟩ := hms
  have hnoted := (foldlM_keeps (P := fun pre ms =>
      pre.foldlM (MidState.applyV2Transaction c) (newMidState s) = .ok ms ∧ ProofNoted s pre ms)
    (fun pre txn post st st' hsplit hpre happly => by
      refine ⟨?_,hpre.2.snoc (hb.admitted pre txn post st hsplit hpre.1) happly⟩
      rw [List.foldlM_append,hpre.1,ok_bind,List.foldlM_cons,happly]
      rfl)
    hrun ⟨rfl,⟨rfl,by simp [newMidState],by simp,fun _ => rfl⟩⟩).2
  have hsame := MidState.createAll_trigger (fun ms => ms.base.maturityHeight) hpayouts
  exact ⟨hsame.base.trans hnoted.base,by rw [hsame.proved]; exact hnoted.proved,hnoted.once,hnoted.declared⟩

end Flag

section Chains

variable {c : Crypto} {target : State → Block → Time} {m : QdayManifest} {blocks : List Block} {ch ch' : Chain}

/-- No block ID is the zero hash, which stands for the parent of the genesis block. -/
def IdsNonzero (c : Crypto) (m : QdayManifest) (blocks : List Block) : Prop :=
  ∀ h ∈ chainHeaders c m blocks, h.id c ≠ default

/-- The heights that canary proofs announce are 64-bit numbers. -/
def AnnouncedFit (m : QdayManifest) (blocks : List Block) : Prop :=
  ∀ i b, blocks[i]? = some b → b.canaryProofs ≠ [] → i + 1 + m.network.qday.activationDelay.toNat < 2^64

/-- What the chain has announced. -/
structure Announced (c : Crypto) (m : QdayManifest) (blocks : List Block) (s : State) : Prop where
  network : s.network = m.network
  index : s.index.height = UInt64.ofNat blocks.length
  tip : s.index.id ≠ default
  short : blocks.length < 2^64
  once : (canaryProofs blocks).length ≤ 1
  unset : s.qdayHeight = 0 ↔ canaryProofs blocks = []
  set : ∀ i b, blocks[i]? = some b → b.canaryProofs ≠ [] →
    s.qdayHeight.toNat = i + 1 + m.network.qday.activationDelay.toNat

theorem canaryProofs_ne_nil {i : ℕ} (hb : blocks[i]? = some b) (hproof : b.canaryProofs ≠ []) :
    canaryProofs blocks ≠ [] := by
  intro hnone
  exact hproof (List.flatMap_eq_nil_iff.mp hnone b (List.mem_of_getElem? hb))

theorem IdsNonzero.init (h : IdsNonzero c m (blocks ++ [b])) : IdsNonzero c m blocks ∧ b.id c ≠ default := by
  rw [IdsNonzero,chainHeaders_snoc,List.forall_mem_cons] at h
  exact ⟨h.2,h.1⟩

theorem AnnouncedFit.init (h : AnnouncedFit m (blocks ++ [b])) : AnnouncedFit m blocks ∧
    (b.canaryProofs ≠ [] → blocks.length + 1 + m.network.qday.activationDelay.toNat < 2^64) := by
  refine ⟨?_,h blocks.length b (by simp)⟩
  intro i b' hb'
  refine h i b' ?_
  rw [List.getElem?_append_left (List.getElem?_eq_some_iff.mp hb').1,hb']

variable {s' : State} {post : List Block}

theorem Announced.keep (h : Announced c m blocks s) (hnone : b.canaryProofs = [])
    (hqday : s'.qdayHeight = s.qdayHeight) :
    (canaryProofs (blocks ++ [b])).length ≤ 1 ∧ (s'.qdayHeight = 0 ↔ canaryProofs (blocks ++ [b]) = []) ∧
      ∀ i b', (blocks ++ [b])[i]? = some b' → b'.canaryProofs ≠ [] →
        s'.qdayHeight.toNat = i + 1 + m.network.qday.activationDelay.toNat := by
  rw [canaryProofs_snoc,hnone,List.append_nil,hqday]
  refine ⟨h.once,h.unset,?_⟩
  intro i b' hb' hproof
  rcases lt_or_ge i blocks.length with hi | hi
  · rw [List.getElem?_append_left hi] at hb'
    exact h.set i b' hb' hproof
  · rw [List.getElem?_append_right hi,List.getElem?_singleton] at hb'
    split_ifs at hb'
    obtain rfl := Option.some.inj hb'
    exact absurd hnone hproof

theorem Announced.announce (hnone : canaryProofs blocks = []) (honce : b.canaryProofs.length ≤ 1)
    (hproof : b.canaryProofs ≠ [])
    (hqday : s'.qdayHeight.toNat = blocks.length + 1 + m.network.qday.activationDelay.toNat) :
    (canaryProofs (blocks ++ [b])).length ≤ 1 ∧ (s'.qdayHeight = 0 ↔ canaryProofs (blocks ++ [b]) = []) ∧
      ∀ i b', (blocks ++ [b])[i]? = some b' → b'.canaryProofs ≠ [] →
        s'.qdayHeight.toNat = i + 1 + m.network.qday.activationDelay.toNat := by
  rw [canaryProofs_snoc,hnone,List.nil_append]
  refine ⟨honce,⟨fun hzero => ?_,fun hnil => absurd hnil hproof⟩,?_⟩
  · rw [hzero,UInt64.toNat_zero] at hqday
    omega
  · intro i b' hb' hproof'
    rcases lt_or_ge i blocks.length with hi | hi
    · rw [List.getElem?_append_left hi] at hb'
      exact absurd hnone (canaryProofs_ne_nil hb' hproof')
    · rw [List.getElem?_append_right hi,List.getElem?_singleton] at hb'
      split_ifs at hb' with hlast
      rw [hqday]
      omega

theorem Announced.extend (h : Announced c m blocks ch.state) (hids : IdsNonzero c m (blocks ++ [b]))
    (hfit : AnnouncedFit m (blocks ++ [b])) (hext : ch.extend c target b = .ok ch') :
    Announced c m (blocks ++ [b]) ch'.state := by
  obtain ⟨hvalid,s,au,ms,out,ha,rfl⟩ := Chain.extend_inv hext
  have hb := block_accepted hvalid
  have hnoted := hb.proofNoted ha.midState
  obtain ⟨hheight,hshort⟩ := childHeight_of_length h.index h.short
  have hindex : s.index = ⟨UInt64.ofNat (blocks.length + 1),b.id c⟩ := by
    rw [ha.index,hb.parentID,if_neg h.tip,hheight]
  have hlength : (blocks ++ [b]).length = blocks.length + 1 := by rw [List.length_append,List.length_singleton]
  have hrest : (canaryProofs (blocks ++ [b])).length ≤ 1 ∧ (s.qdayHeight = 0 ↔ canaryProofs (blocks ++ [b]) = []) ∧
      ∀ i b', (blocks ++ [b])[i]? = some b' → b'.canaryProofs ≠ [] →
        s.qdayHeight.toNat = i + 1 + m.network.qday.activationDelay.toNat := by
    by_cases hproof : b.canaryProofs = []
    · refine h.keep hproof ?_
      rw [ha.qdayHeight,if_neg]
      exact fun hset => hnoted.proved.mp hset.2 hproof
    · have hzero : ch.state.qdayHeight = 0 := by
        by_contra hset
        exact hproof (hnoted.declared hset)
      refine Announced.announce (h.unset.mp hzero) hnoted.once hproof ?_
      have hlt := hfit.init.2 hproof
      rw [ha.qdayHeight,if_pos ⟨hzero,hnoted.proved.mpr hproof⟩,hindex,h.network,UInt64.toNat_add,
        UInt64.toNat_ofNat_of_lt' (hshort hb.childHeight),Nat.mod_eq_of_lt hlt]
  refine ⟨ha.network.trans h.network,?_,?_,?_,hrest.1,hrest.2.1,hrest.2.2⟩
  · rw [hlength]
    exact congrArg ChainIndex.height hindex
  · have hid : s.index.id = b.id c := congrArg ChainIndex.id hindex
    exact hid ▸ hids.init.2
  · rw [hlength]
    exact hshort hb.childHeight

theorem genesis_not_proved {root : State}
    (hms : (newMidState root).applyBlock c m.genesis { transactions := [{}] } = .ok ms) : ms.qdayProved = false := by
  simp only [MidState.applyBlock,QdayManifest.genesis,QdayManifest.genesisTransaction,MidState.applyTransactions,
    MidState.applyTransaction,Block.v2Transactions,List.foldlM_nil,foldIdx,pure_bind,ok_bind,bind_pure,
    bind_eq_ok,pure_eq_ok] at hms
  obtain ⟨_,-,_,⟨_,⟨ms₂,⟨ms₁,hcreate,h₁⟩,rfl⟩,h₂⟩,h₃⟩ := hms
  obtain rfl := Except.ok.inj h₃
  obtain rfl := Except.ok.inj h₂
  obtain rfl := Except.ok.inj h₁
  obtain ⟨subsidy,management,hdata⟩ := applyArbitraryData_eq ms₁ m.arbitraryData
  rw [hdata]
  exact (MidState.recordSiacoinElement_trigger hcreate).proved

theorem genesis_announced (hchain : m.chain c = .ok ch) (hids : IdsNonzero c m []) : Announced c m [] ch.state := by
  simp only [QdayManifest.chain,bind_eq_ok,pure_eq_ok] at hchain
  obtain ⟨root,hroot,⟨s,au⟩,hstart,rfl⟩ := hchain
  rw [QdayManifest.start,hroot,ok_bind] at hstart
  obtain ⟨ms,out,ha⟩ := applyBlock_inv hstart
  obtain ⟨hnetwork,-,-,hqday⟩ := genesisState_frame hroot
  have hindex : s.index = ⟨0,m.genesis.id c⟩ := ha.index
  have hzero : s.qdayHeight = 0 := by
    rw [ha.qdayHeight,genesis_not_proved ha.midState]
    simp [hqday]
  refine ⟨ha.network.trans hnetwork,congrArg ChainIndex.height hindex,?_,Nat.two_pow_pos 64,Nat.zero_le 1,
    ⟨fun _ => rfl,fun _ => hzero⟩,?_⟩
  · have hid : s.index.id = m.genesis.id c := congrArg ChainIndex.id hindex
    exact hid ▸ hids (m.genesis.header c) (List.mem_singleton.mpr rfl)
  · intro i b hb
    cases hb

theorem runChain_announced (hrun : runChain c target m blocks = .ok ch) (hids : IdsNonzero c m blocks)
    (hfit : AnnouncedFit m blocks) : Announced c m blocks ch.state := by
  refine runChain_induct (S := Set.univ)
    (P := fun blocks ch => IdsNonzero c m blocks → AnnouncedFit m blocks → Announced c m blocks ch.state)
    (fun ch hchain _ hids _ => genesis_announced hchain hids) ?_ hrun (fun x _ => Set.mem_univ x) hids hfit
  intro blocks b ch ch' _ h hext _ hids hfit
  exact (h hids.init.1 hfit.init.1).extend hids hfit hext

theorem IdsNonzero.take {pre : List Block} (h : IdsNonzero c m (pre ++ post)) : IdsNonzero c m pre := by
  induction post using List.reverseRecOn with
  | nil => rwa [List.append_nil] at h
  | append_singleton post b ih =>
    rw [← List.append_assoc] at h
    exact ih h.init.1

theorem AnnouncedFit.take {pre : List Block} (h : AnnouncedFit m (pre ++ post)) : AnnouncedFit m pre := by
  induction post using List.reverseRecOn with
  | nil => rwa [List.append_nil] at h
  | append_singleton post b ih =>
    rw [← List.append_assoc] at h
    exact ih h.init.1

theorem runChain_take {pre : List Block} (hrun : runChain c target m (pre ++ post) = .ok ch) :
    ∃ before, runChain c target m pre = .ok before := by
  cases post with
  | nil =>
    rw [List.append_nil] at hrun
    exact ⟨ch,hrun⟩
  | cons b post =>
    obtain ⟨before,after,hbefore,-⟩ := runChain_split hrun
    exact ⟨before,hbefore⟩

end Chains

section Announcement

variable (c : Crypto) (target : State → Block → Time) (m : QdayManifest) (blocks : List Block) (ch : Chain)

/-- A chain holds at most one canary proof.  After each of its blocks `QdayHeight` is set exactly if a proof has been
included, and then to the height of the including block plus the delay, for good. -/
theorem qdayHeight_set_once (hrun : runChain c target m blocks = .ok ch) (hids : IdsNonzero c m blocks)
    (hfit : AnnouncedFit m blocks) :
    (canaryProofs blocks).length ≤ 1 ∧ ∀ pre post, blocks = pre ++ post → ∃ before,
      runChain c target m pre = .ok before ∧ (before.state.qdayHeight ≠ 0 ↔ canaryProofs pre ≠ []) ∧
      ∀ i b, pre[i]? = some b → b.canaryProofs ≠ [] →
        before.state.qdayHeight.toNat = i + 1 + m.network.qday.activationDelay.toNat ∧
        ch.state.qdayHeight = before.state.qdayHeight := by
  have hend := runChain_announced hrun hids hfit
  refine ⟨hend.once,?_⟩
  rintro pre post rfl
  obtain ⟨before,hbefore⟩ := runChain_take hrun
  have hpre := runChain_announced hbefore hids.take hfit.take
  refine ⟨before,hbefore,not_congr hpre.unset,?_⟩
  intro i b hb hproof
  have hat := hpre.set i b hb hproof
  refine ⟨hat,UInt64.toNat.inj ?_⟩
  rw [hat,hend.set i b ?_ hproof]
  rw [List.getElem?_append_left (List.getElem?_eq_some_iff.mp hb).1,hb]

def sampleProof : V2Transaction where
  siacoinInputs := [⟨samplePremine, sampleSpend⟩]
  siacoinOutputs := [⟨⟨100, 0⟩, sampleManifest.premine⟩]
  minerFee := ⟨100, 0⟩
  arbitraryData := (QdayEnvelope.mk qdayCanaryProof 0 [] default).encode

def sampleProofRun : Outcome (Block × Chain) := do
  let ch ← sampleManifest.chain sampleCrypto
  let b ← candidateWithNonce sampleCrypto ch.state sampleKeys [sampleProof] sampleTime 0
  let ch ← runChain sampleCrypto (fun _ _ => default) sampleManifest [b]
  return (b, ch)

theorem qdayHeight_set_once_sample :
    ∃ b ch, runChain sampleCrypto (fun _ _ => default) sampleManifest [b] = .ok ch ∧ b.canaryProofs ≠ [] ∧
      ch.state.qdayHeight = 2 := by
  obtain ⟨⟨b,ch⟩,hrun,hcheck⟩ := exists_of_holds (x := sampleProofRun)
    (p := fun r => decide ((∀ h ∈ chainHeaders sampleCrypto sampleManifest [r.1], h.id sampleCrypto ≠ default) ∧
      r.1.canaryProofs.length = 1)) (by decide +kernel)
  obtain ⟨hids,hlength⟩ := of_decide_eq_true hcheck
  simp only [sampleProofRun,bind_eq_ok,pure_eq_ok,Prod.mk.injEq] at hrun
  obtain ⟨_,-,b',-,ch',hrun,rfl,rfl⟩ := hrun
  have hproof : b'.canaryProofs ≠ [] := List.ne_nil_of_length_eq_add_one hlength
  have hfit : AnnouncedFit sampleManifest [b'] := by
    intro i b hb _
    obtain ⟨hi,-⟩ := List.getElem?_eq_some_iff.mp hb
    rw [List.length_singleton] at hi
    have hdelay : sampleManifest.network.qday.activationDelay.toNat = 1 := rfl
    omega
  obtain ⟨-,hafter⟩ := qdayHeight_set_once sampleCrypto _ sampleManifest [b'] ch' hrun hids hfit
  obtain ⟨before,hbefore,-,hset⟩ := hafter [b'] [] rfl
  obtain rfl : ch' = before := Except.ok.inj (hrun.symm.trans hbefore)
  exact ⟨b',ch',hrun,hproof,UInt64.toNat.inj (hset 0 b' rfl hproof).1⟩

end Announcement

end QdayNode
