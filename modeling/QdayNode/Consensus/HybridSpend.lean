import QdayNode.Consensus.Chain
import QdayNode.Types.AtomicSwap

/-!
# Who can spend an output

Every accepted input shows a policy of one of two shapes, the policy has the address of
the output it spends, and the verifier is satisfied.  Together these mean two
signatures over the same hash under a pair of keys that the address commits to.
-/
namespace QdayNode
open ByteString SpendPolicy Outcome

variable {sigHash : Hash256} {p : SpendPolicy} {sci : V2SiacoinInput} {s : State}

variable {c : Crypto} {ms : MidState} {txn : V2Transaction} {S : Set Bytes}

/-- What validation has checked about the policy of an input. -/
structure SpendAccepted (c : Crypto) (ms : MidState) (sigHash : Hash256) (sci : V2SiacoinInput) : Prop where
  shape : isQdayNativePolicy sci.satisfiedPolicy.policy = true ∨
    (ms.base.qdayV1Active ms.base.childHeight = true ∧ isQdaySwapSpendPolicy sci.satisfiedPolicy.policy = true)
  address : sci.satisfiedPolicy.policy.address c = sci.parent.siacoinOutput.address
  verified : ∃ median, sci.satisfiedPolicy.policy.verify c ⟨ms.base.index.height, median, sigHash⟩
    sci.satisfiedPolicy.signatures sci.satisfiedPolicy.preimages = .ok ()

theorem shapes_accepted (h : validateQdayTransaction c ms txn = .ok ()) : ∀ sci ∈ txn.siacoinInputs,
    isQdayNativePolicy sci.satisfiedPolicy.policy = true ∨
      (ms.base.qdayV1Active ms.base.childHeight = true ∧ isQdaySwapSpendPolicy sci.satisfiedPolicy.policy = true) := by
  rw [validateQdayTransaction,bind_eq_ok] at h
  obtain ⟨e,-,h⟩ := h
  simp only [bind_unit_eq_ok,rejectIf_eq_ok] at h
  obtain ⟨-,-,-,-,-,-,hpolicies,-⟩ := h
  intro sci hsci
  by_contra hshape
  rw [not_or,not_and_or,Bool.not_eq_true,Bool.not_eq_true,Bool.not_eq_true] at hshape
  exact hpolicies ⟨sci,hsci,hshape.1,hshape.2⟩

variable {a : Address}

theorem spendPolicy_eq_ok {sp : SatisfiedPolicy} :
    validateV2SpendPolicy c ms sigHash sp a = .ok () ↔ sp.policy.address c = a ∧
      ∃ median, ms.base.medianTimestamp = .ok median ∧
        sp.policy.verify c ⟨ms.base.index.height, median, sigHash⟩ sp.signatures sp.preimages = .ok () := by
  rw [validateV2SpendPolicy,bind_unit_eq_ok,bind_eq_ok,rejectIf_eq_ok,not_not]

theorem policies_accepted {scis : List V2SiacoinInput} {spent : List SiacoinOutputID}
    (h : validateSiacoinInputs c ms sigHash scis spent = .ok ()) : ∀ sci ∈ scis,
      validateV2SpendPolicy c ms sigHash sci.satisfiedPolicy sci.parent.siacoinOutput.address = .ok () := by
  induction scis generalizing spent with
  | nil => simp
  | cons sci scis ih =>
    rw [validateSiacoinInputs,bind_unit_eq_ok] at h
    obtain ⟨hhead,hrest⟩ := h
    simp only [validateSiacoinInput,bind_unit_eq_ok] at hhead
    exact List.forall_mem_cons.mpr ⟨hhead.2.2.2.2,ih hrest⟩

theorem spends_accepted (h : validateV2Transaction c ms txn = .ok ()) : ∀ sci ∈ txn.siacoinInputs,
    SpendAccepted c ms (ms.base.inputSigHash c txn) sci := by
  simp only [validateV2Transaction,validateV2Siacoins,bind_unit_eq_ok] at h
  obtain ⟨hshape,-,-,-,-,hpolicies,-⟩ := h
  intro sci hsci
  obtain ⟨haddress,median,-,hverify⟩ := spendPolicy_eq_ok.mp (policies_accepted hpolicies sci hsci)
  exact ⟨shapes_accepted hshape sci hsci,haddress,median,hverify⟩

section Shapes

theorem nativePolicy_eq (h : isQdayNativePolicy p = true) : ∃ k : QdayKeys, p = k.policy := by
  unfold isQdayNativePolicy at h
  split at h
  · rename_i classical reserve
    exact ⟨⟨classical,reserve⟩,rfl⟩
  · cases h

theorem swapBranch_eq (h : isQdaySwapBranch p = true) :
    ∃ k lock, p = swapBranch k lock ∧ IsLock lock := by
  unfold isQdaySwapBranch at h
  split at h
  · rename_i classical reserve h'
    exact ⟨⟨classical,reserve⟩,.hash h',rfl,.hash h'⟩
  · rename_i classical reserve height
    exact ⟨⟨classical,reserve⟩,.above height,rfl,.above height⟩
  · cases h

theorem isOpaque_eq (h : p.isOpaque = true) : ∃ a, p = .opaqueHash a := by
  cases p with
  | opaqueHash a => exact ⟨a,rfl⟩
  | _ => cases h

theorem swapPolicy_eq (h : isQdaySwapSpendPolicy p = true) :
    ∃ k lock a ps, p = .threshold 1 ps ∧ ShownBeside (swapBranch k lock) a ps ∧ IsLock lock := by
  unfold isQdaySwapSpendPolicy at h
  split at h
  · rename_i q r
    split at h
    · rename_i hq hr
      obtain ⟨a,rfl⟩ := isOpaque_eq hq
      obtain ⟨k,lock,rfl,hlock⟩ := swapBranch_eq h
      exact ⟨k,lock,a,_,rfl,.inr rfl,hlock⟩
    · rename_i hq hr
      obtain ⟨a,rfl⟩ := isOpaque_eq hr
      obtain ⟨k,lock,rfl,hlock⟩ := swapBranch_eq h
      exact ⟨k,lock,a,_,rfl,.inl rfl,hlock⟩
    · cases h
  · cases h

end Shapes

/-- The address is that of `p`, and whatever else is shown for it agrees with `p`. -/
def CommittedBy (c : Crypto) (S : Set Bytes) (a : Address) (p : SpendPolicy) : Prop :=
  p.address c = a ∧ ∀ q, q.AddressHashed c S → q.address c = a → Agrees c q p

theorem committedBy_of_address (hinj : Set.InjOn c.sum256 S) (hp : p.AddressHashed c S)
    (h : p.address c = a) : CommittedBy c S a p :=
  ⟨h,fun _ hq heq => agrees_of_address hinj hq hp (heq.trans h.symm)⟩

theorem SpendAccepted.signed (h : SpendAccepted c ms sigHash sci) :
    ∃ k rest, HybridSigned c k sigHash sci.satisfiedPolicy.signatures sci.satisfiedPolicy.preimages rest ∧
      (sci.satisfiedPolicy.policy = k.policy ∨ (ms.base.qdayV1Active ms.base.childHeight = true ∧
        ∃ lock a ps, IsLock lock ∧ sci.satisfiedPolicy.policy = .threshold 1 ps ∧
          ShownBeside (swapBranch k lock) a ps)) := by
  obtain ⟨median,hverify⟩ := h.verified
  rcases h.shape with hnative | ⟨hactive,hswap⟩
  · obtain ⟨k,hk⟩ := nativePolicy_eq hnative
    rw [hk] at hverify
    exact ⟨k,[],verify_native_iff.mp hverify,.inl hk⟩
  · obtain ⟨k,lock,a,ps,hps,hshown,hlock⟩ := swapPolicy_eq hswap
    rw [hps] at hverify
    have hbranch : ∃ rest, HybridSigned c k sigHash sci.satisfiedPolicy.signatures sci.satisfiedPolicy.preimages rest := by
      cases hlock with
      | hash h =>
        obtain ⟨secret,hsigned,-⟩ := (verify_claim_iff hshown).mp hverify
        exact ⟨[secret],hsigned⟩
      | above height => exact ⟨[],((verify_refund_iff hshown).mp hverify).1⟩
    obtain ⟨rest,hsigned⟩ := hbranch
    exact ⟨k,rest,hsigned,.inr ⟨hactive,lock,a,ps,hlock,hps,hshown⟩⟩

theorem qdayV1Active_iff {height : UInt64} :
    s.qdayV1Active height = true ↔ s.network.qday.v1Height ≠ 0 ∧ s.network.qday.v1Height ≤ height := by
  simp [State.qdayV1Active]

/-- Every accepted input carries an Ed25519 and an SLH-DSA signature over the transaction's signature hash, under a pair
of keys that the address of the spent output commits to: as a native policy, or from the V1 height on as the first two
children of the shown branch of a swap. -/
theorem inputs_hybrid_signed (c : Crypto) (S : Set Bytes) (ms : MidState) (txn : V2Transaction)
    (hinj : Set.InjOn c.sum256 S)
    (hhashed : ∀ sci ∈ txn.siacoinInputs, sci.satisfiedPolicy.policy.AddressHashed c S)
    (hvalid : validateV2Transaction c ms txn = .ok ()) :
    ∀ sci ∈ txn.siacoinInputs, ∃ k rest,
      HybridSigned c k (ms.base.inputSigHash c txn) sci.satisfiedPolicy.signatures sci.satisfiedPolicy.preimages rest ∧
      (CommittedBy c S sci.parent.siacoinOutput.address k.policy ∨
        (ms.base.network.qday.v1Height ≠ 0 ∧ ms.base.network.qday.v1Height ≤ ms.base.childHeight ∧
          ∃ lock a ps, ShownBeside (swapBranch k lock) a ps ∧
            CommittedBy c S sci.parent.siacoinOutput.address (.threshold 1 ps))) := by
  intro sci hsci
  have haccepted := spends_accepted hvalid sci hsci
  have hcommitted := committedBy_of_address hinj (hhashed sci hsci) haccepted.address
  obtain ⟨k,rest,hsigned,hpolicy⟩ := haccepted.signed
  refine ⟨k,rest,hsigned,?_⟩
  rcases hpolicy with hnative | ⟨hactive,lock,a,ps,-,hps,hshown⟩
  · exact .inl (hnative ▸ hcommitted)
  · obtain ⟨hset,hheight⟩ := qdayV1Active_iff.mp hactive
    exact .inr ⟨hset,hheight,lock,a,ps,hshown,hps ▸ hcommitted⟩

def sampleAddressMessages : List Bytes :=
  [addressMessage sampleCrypto sampleKeys.policy, addressMessage sampleCrypto (.publicKey sampleKeys.classical),
    addressMessage sampleCrypto (.slhdsa sampleKeys.reserve)]

theorem inputs_hybrid_signed_sample : ∃ ch, sampleManifest.chain sampleCrypto = .ok ch ∧
    validateV2Transaction sampleCrypto (newMidState ch.state) sampleTransfer = .ok () ∧
    ∃ k rest, HybridSigned sampleCrypto k (ch.state.inputSigHash sampleCrypto sampleTransfer) [default]
      (List.replicate 246 default) rest := by
  obtain ⟨ch,hchain,hcheck⟩ := exists_of_holds (x := sampleManifest.chain sampleCrypto)
    (p := fun ch => decide (validateV2Transaction sampleCrypto (newMidState ch.state) sampleTransfer = .ok ()))
    (by decide +kernel)
  have hvalid := of_decide_eq_true hcheck
  have hideal : IdealOn sampleCrypto.sum256 default {x | x ∈ sampleAddressMessages} :=
    idealOn_of_nodup (by decide +kernel) (by decide +kernel)
  have hhashed : ∀ sci ∈ sampleTransfer.siacoinInputs,
      sci.satisfiedPolicy.policy.AddressHashed sampleCrypto {x | x ∈ sampleAddressMessages} := by
    intro sci hsci
    rw [List.mem_singleton.mp hsci]
    exact ⟨List.mem_cons_self,List.mem_cons_of_mem _ List.mem_cons_self,
      List.mem_cons_of_mem _ (List.mem_cons_of_mem _ List.mem_cons_self),trivial⟩
  obtain ⟨k,rest,hsigned,-⟩ := inputs_hybrid_signed sampleCrypto _ _ sampleTransfer hideal.inj hhashed hvalid _
    (List.mem_singleton.mpr rfl)
  exact ⟨ch,hchain,hvalid,k,rest,hsigned⟩

section Swaps

variable {swap : QdayAtomicSwap}

theorem medianTimestamp_returns (h : s.childHeight ≠ 0) : ∃ t, s.medianTimestamp = .ok t := by
  have hpos : 0 < s.childHeight.toNat := by
    rw [Nat.pos_iff_ne_zero]
    exact fun hzero => h (UInt64.toNat.inj hzero)
  have hlength : 0 < ((s.prevTimestamps.val.take s.numTimestamps).insertionSort State.timeOrder).length := by
    rw [List.length_insertionSort,List.length_take,s.prevTimestamps.property,State.numTimestamps]
    exact Nat.lt_min.mpr ⟨Nat.lt_min.mpr ⟨hpos,by decide⟩,by decide⟩
  unfold State.medianTimestamp
  dsimp only
  split_ifs
  · exact ⟨_,rfl⟩
  · split
    · rename_i hnil
      rw [hnil] at hlength
      cases hlength
    · exact ⟨_,rfl⟩

/-- An accepted spend of a swap is a claim or a refund. -/
theorem SpendAccepted.claim_or_refund (h : SpendAccepted c ms sigHash sci) (hinj : Set.InjOn c.sum256 S)
    (hhashed : sci.satisfiedPolicy.policy.AddressHashed c S)
    (hswap : (SpendPolicy.threshold 1 [swap.claimBranch, swap.refundBranch]).AddressHashed c S)
    (haddress : sci.parent.siacoinOutput.address =
      (SpendPolicy.threshold 1 [swap.claimBranch, swap.refundBranch]).address c) :
    (∃ secret, HybridSigned c swap.recipient sigHash sci.satisfiedPolicy.signatures sci.satisfiedPolicy.preimages [secret] ∧
        c.sha256 secret.val = swap.secretHash) ∨
      (HybridSigned c swap.refund sigHash sci.satisfiedPolicy.signatures sci.satisfiedPolicy.preimages [] ∧
        swap.refundHeight ≤ ms.base.index.height) := by
  have hagrees := agrees_of_address hinj hhashed hswap (h.address.trans haddress)
  obtain ⟨median,hverify⟩ := h.verified
  rcases h.shape with hnative | ⟨-,hshape⟩
  · obtain ⟨k,hk⟩ := nativePolicy_eq hnative
    rw [hk] at hagrees
    have htwo : ¬ ((2 : UInt8) = 1) := by decide
    exact absurd hagrees.threshold_inv.1 htwo
  · obtain ⟨k,lock,a,ps,hps,hshown,hlock⟩ := swapPolicy_eq hshape
    rw [hps] at hagrees hverify
    obtain ⟨-,hchildren⟩ := hagrees.threshold_inv
    rcases hshown with rfl | rfl
    · simp only [List.forall₂_cons] at hchildren
      obtain ⟨rfl,rfl⟩ := hchildren.1.swapBranch_inv hlock (.hash swap.secretHash)
      obtain ⟨secret,hsigned,hsecret⟩ := (verify_claim_iff (.inl rfl)).mp hverify
      exact .inl ⟨secret,hsigned,hsecret.symm⟩
    · simp only [List.forall₂_cons] at hchildren
      obtain ⟨rfl,rfl⟩ := hchildren.2.1.swapBranch_inv hlock (.above swap.refundHeight)
      obtain ⟨hsigned,hheight⟩ := (verify_refund_iff (.inr rfl)).mp hverify
      exact .inr ⟨hsigned,hheight⟩

theorem isQdaySwapSpendPolicy_claim (h : swap.validate = .ok ()) :
    isQdaySwapSpendPolicy (.threshold 1 [swap.claimBranch, policyOpaque c swap.refundBranch]) = true := by
  simp [isQdaySwapSpendPolicy,QdayAtomicSwap.claimBranch,swapBranch,policyOpaque,isOpaque,isQdaySwapBranch,
    (QdayAtomicSwap.validate_inv h).1]

theorem isQdaySwapSpendPolicy_refund (h : swap.validate = .ok ()) :
    isQdaySwapSpendPolicy (.threshold 1 [policyOpaque c swap.claimBranch, swap.refundBranch]) = true := by
  simp [isQdaySwapSpendPolicy,QdayAtomicSwap.refundBranch,swapBranch,policyOpaque,isOpaque,isQdaySwapBranch,
    (QdayAtomicSwap.validate_inv h).2]

theorem childHeight_ne_zero (h : ms.base.qdayV1Active ms.base.childHeight = true) : ms.base.childHeight ≠ 0 := by
  obtain ⟨hset,hheight⟩ := qdayV1Active_iff.mp h
  intro hzero
  rw [hzero] at hheight
  exact hset (UInt64.le_zero_iff.mp hheight)

end Swaps

/-- A valid swap has one address, however much of it is shown.  An accepted spend of it carries both signatures of the
recipient and the secret, or both of the sender once the refund height is reached; and what `Claim` and `RefundSpend`
return is accepted accordingly. -/
theorem atomicSwap_claim_or_refund (c : Crypto) (swap : QdayAtomicSwap) (hswap : swap.validate = .ok ()) :
    ∃ a, swap.HasAddress c a ∧
      (∀ (S : Set Bytes) (ms : MidState) (txn : V2Transaction), Set.InjOn c.sum256 S →
        (∀ p, swap.policy = .ok p → p.AddressHashed c S) →
        (∀ sci ∈ txn.siacoinInputs, sci.satisfiedPolicy.policy.AddressHashed c S) →
        validateV2Transaction c ms txn = .ok () →
        ∀ sci ∈ txn.siacoinInputs, sci.parent.siacoinOutput.address = a →
          (∃ secret, HybridSigned c swap.recipient (ms.base.inputSigHash c txn) sci.satisfiedPolicy.signatures
              sci.satisfiedPolicy.preimages [secret] ∧ c.sha256 secret.val = swap.secretHash) ∨
            (HybridSigned c swap.refund (ms.base.inputSigHash c txn) sci.satisfiedPolicy.signatures
              sci.satisfiedPolicy.preimages [] ∧ swap.refundHeight ≤ ms.base.index.height)) ∧
      ∀ (ms : MidState) (keys : QdayPrivateKeys) (sigHash : Hash256), keys.Correct c →
        ms.base.qdayV1Active ms.base.childHeight = true →
        (∀ secret sp, swap.claim c sigHash (some keys) secret = .ok sp →
          isQdaySwapSpendPolicy sp.policy = true ∧ validateV2SpendPolicy c ms sigHash sp a = .ok ()) ∧
        ∀ sp, swap.refundSpend c sigHash (some keys) = .ok sp → isQdaySwapSpendPolicy sp.policy = true ∧
          (validateV2SpendPolicy c ms sigHash sp a = .ok () ↔ swap.refundHeight ≤ ms.base.index.height) := by
  refine ⟨_,QdayAtomicSwap.hasAddress hswap,?_,?_⟩
  · intro S ms txn hinj hpolicy hhashed hvalid sci hsci haddress
    exact (spends_accepted hvalid sci hsci).claim_or_refund hinj (hhashed sci hsci)
      (hpolicy _ (QdayAtomicSwap.policy_eq hswap)) haddress
  · intro ms keys sigHash hkeys hactive
    obtain ⟨median,hmedian⟩ := medianTimestamp_returns (childHeight_ne_zero hactive)
    refine ⟨?_,?_⟩
    · intro secret sp hclaim
      obtain ⟨hsigned,hsecret,hpolicy⟩ := QdayAtomicSwap.claim_inv hkeys hclaim
      rw [spendPolicy_eq_ok,hpolicy]
      refine ⟨isQdaySwapSpendPolicy_claim hswap,QdayAtomicSwap.address_eq_of_hidden _ _ rfl,median,hmedian,?_⟩
      exact (verify_claim_iff (.inl rfl)).mpr ⟨secret,hsigned,hsecret⟩
    · intro sp hrefund
      obtain ⟨hsigned,hpolicy⟩ := QdayAtomicSwap.refundSpend_inv hkeys hrefund
      rw [spendPolicy_eq_ok,hpolicy]
      refine ⟨isQdaySwapSpendPolicy_refund hswap,?_,?_⟩
      · rintro ⟨-,median',-,hverify⟩
        exact ((verify_refund_iff (.inr rfl)).mp hverify).2
      · intro hheight
        exact ⟨QdayAtomicSwap.address_eq_of_hidden _ _ rfl,median,hmedian,
          (verify_refund_iff (.inr rfl)).mpr ⟨hsigned,hheight⟩⟩

def sampleSwap : QdayAtomicSwap := ⟨sampleKeys, ⟨FixedBytes.ofNat 32 4, FixedBytes.ofNat 32 5⟩, sampleCrypto.sha256 (FixedBytes.zero 32).val, 9200⟩

def samplePrivateKeys : QdayPrivateKeys := ⟨fun _ => default, fun _ _ => .ok (List.replicate 7856 0), sampleKeys⟩

def sampleLateState : State := { sampleState ⟨fun _ => default, 0⟩ with index := ⟨9100, FixedBytes.ofNat 32 5⟩ }

theorem atomicSwap_claim_or_refund_sample : ∃ a sp, sampleSwap.HasAddress sampleCrypto a ∧
    sampleSwap.claim sampleCrypto default (some samplePrivateKeys) default = .ok sp ∧
    validateV2SpendPolicy sampleCrypto (newMidState sampleLateState) default sp a = .ok () := by
  have hvalid : sampleSwap.validate = .ok () := by decide +kernel
  obtain ⟨sp,hclaim⟩ := exists_of_isOk
    (x := sampleSwap.claim sampleCrypto default (some samplePrivateKeys) default) (by decide +kernel)
  have hkeys : samplePrivateKeys.Correct sampleCrypto := ⟨fun _ => rfl,fun _ _ _ _ => rfl⟩
  have hactive : sampleLateState.qdayV1Active sampleLateState.childHeight = true := by decide +kernel
  obtain ⟨a,haddress,-,hspends⟩ := atomicSwap_claim_or_refund sampleCrypto sampleSwap hvalid
  exact ⟨a,sp,haddress,hclaim,((hspends (newMidState sampleLateState) samplePrivateKeys default hkeys hactive).1 _ sp hclaim).2⟩

end QdayNode
