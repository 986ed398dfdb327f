import QdayNode.Types.PolicyAddress

/-!
# Hybrid signatures and atomic swaps

`types/qday.go` signs with an Ed25519 and an SLH-DSA key at once, and
`types/qday_swap.go` locks an output under two such key pairs, one with a hash and one
with a height.  What the verifier consumes for either is worked out here, for every
witness.
-/
namespace QdayNode
open ByteString Outcome

variable {c : Crypto} {k : QdayKeys} {h : Hash256} {ps : List SpendPolicy} {lock lock' : SpendPolicy}
  {pk : FixedBytes 32} {n : UInt8} {sp : SatisfiedPolicy}

/-- The private keys are known by what they sign. -/
structure QdayPrivateKeys where
  /-- `ed25519.Sign` under the classical key. -/
  signClassical : Bytes → Signature
  /-- `slhdsa.SignDeterministic` of a message and a context under the reserve key. -/
  signReserve : Bytes → Bytes → Outcome Bytes
  publicKeys : QdayKeys

def qdaySignatureContext : Bytes := ascii "QDAY/reserve/v1"

/-- `QdayPrivateKeys.Sign`: the reserve signature travels in 32-byte chunks. -/
def QdayPrivateKeys.sign (k : QdayPrivateKeys) (h : Hash256) : Outcome SatisfiedPolicy := do
  let sig ← k.signReserve h.val qdaySignatureContext
  rejectIf (sig.length ≠ qdaySignatureSize) "unexpected SLH-DSA signature length"
  return ⟨k.publicKeys.policy, [k.signClassical h.val], (List.range qdaySignatureChunks).map fun i => slice 32 (32*i) sig⟩

def policyOpaque (c : Crypto) (p : SpendPolicy) : SpendPolicy := .opaqueHash (p.opaqueAddress c)

structure QdayAtomicSwap where
  recipient : QdayKeys
  refund : QdayKeys
  secretHash : Hash256
  refundHeight : UInt64
  deriving DecidableEq

/-- The branch of a swap with the keys `k`: both signatures and a lock. -/
def swapBranch (k : QdayKeys) (lock : SpendPolicy) : SpendPolicy :=
  .threshold 3 [.publicKey k.classical, .slhdsa k.reserve, lock]

namespace QdayAtomicSwap

def validate (s : QdayAtomicSwap) : Outcome Unit := do
  rejectIf (s.recipient.validate.isOk = false) "invalid atomic-swap recipient keys"
  rejectIf (s.refund.validate.isOk = false) "invalid atomic-swap refund keys"
  rejectIf (s.secretHash = default) "atomic-swap secret hash is zero"
  rejectIf (s.refundHeight = 0) "atomic-swap refund height is zero"

def claimBranch (s : QdayAtomicSwap) : SpendPolicy := swapBranch s.recipient (.hash s.secretHash)

def refundBranch (s : QdayAtomicSwap) : SpendPolicy := swapBranch s.refund (.above s.refundHeight)

def policy (s : QdayAtomicSwap) : Outcome SpendPolicy := do
  s.validate
  return .threshold 1 [s.claimBranch, s.refundBranch]

/-- `QdayAtomicSwap.Address` encodes the policy even when there is none. -/
def address (c : Crypto) (s : QdayAtomicSwap) : Outcome Address :=
  match s.policy with
  | .ok p => .ok (p.address c)
  | .error _ => crash "unhandled policy type"

/-- Reveals only the claim branch. -/
def claimPolicy (c : Crypto) (s : QdayAtomicSwap) : Outcome SpendPolicy := do
  s.validate
  return .threshold 1 [s.claimBranch, policyOpaque c s.refundBranch]

/-- Reveals only the refund branch. -/
def refundPolicy (c : Crypto) (s : QdayAtomicSwap) : Outcome SpendPolicy := do
  s.validate
  return .threshold 1 [policyOpaque c s.claimBranch, s.refundBranch]

def claim (c : Crypto) (s : QdayAtomicSwap) (sigHash : Hash256) (keys : Option QdayPrivateKeys) (secret : FixedBytes 32) :
    Outcome SatisfiedPolicy :=
  match keys with
  | none => fail "atomic-swap claim keys do not match recipient"
  | some keys => do
      rejectIf (keys.publicKeys ≠ s.recipient) "atomic-swap claim keys do not match recipient"
      rejectIf (c.sha256 secret.val ≠ s.secretHash) "atomic-swap secret does not match hashlock"
      let witness ← keys.sign sigHash
      let policy ← s.claimPolicy c
      return { witness with policy, preimages := witness.preimages ++ [secret] }

def refundSpend (c : Crypto) (s : QdayAtomicSwap) (sigHash : Hash256) (keys : Option QdayPrivateKeys) :
    Outcome SatisfiedPolicy :=
  match keys with
  | none => fail "atomic-swap refund keys do not match sender"
  | some keys => do
      rejectIf (keys.publicKeys ≠ s.refund) "atomic-swap refund keys do not match sender"
      let witness ← keys.sign sigHash
      let policy ← s.refundPolicy c
      return { witness with policy }

end QdayAtomicSwap

section Verification

variable {ctx : SpendContext}

/-- One signature of each kind over `sigHash`, in front of the preimages `rest`. -/
structure HybridSigned (c : Crypto) (k : QdayKeys) (sigHash : Hash256) (sigs : List Signature)
    (preimages rest : List (FixedBytes 32)) : Prop where
  classical : ∃ sig, sigs = [sig] ∧ c.verifyEd25519 k.classical sigHash.val sig = true
  reserve : ∃ chunks, preimages = chunks ++ rest ∧ verifyQdayReserve c k.reserve sigHash chunks = true

namespace SpendPolicy

variable {w w' : Witness} {sigs : List Signature}
  {preimages : List (FixedBytes 32)} {a : Address}

theorem verifyPolicy_publicKey {pk : PublicKey} :
    verifyPolicy c ctx (.publicKey pk) w = .ok w' ↔
      ∃ sig, w.sigs = sig :: w'.sigs ∧ c.verifyEd25519 pk ctx.sigHash.val sig = true ∧
        w' = { w with sigs := w'.sigs } := by
  cases hsigs : w.sigs with
  | nil => simp [verifyPolicy,hsigs]
  | cons sig rest =>
    by_cases hverify : c.verifyEd25519 pk ctx.sigHash.val sig = true
    · simp only [verifyPolicy,hsigs,if_pos hverify,Except.ok.injEq]
      constructor
      · rintro rfl
        exact ⟨sig,rfl,hverify,rfl⟩
      · rintro ⟨_,heq,-,hw⟩
        rw [hw,(List.cons.inj heq).2]
    · simp only [verifyPolicy,hsigs,if_neg hverify,fail_ne_ok,false_iff]
      rintro ⟨sig',heq,hverify',-⟩
      exact hverify ((List.cons.inj heq).1 ▸ hverify')

theorem verifyPolicy_slhdsa :
    verifyPolicy c ctx (.slhdsa pk) w = .ok w' ↔
      ∃ chunks, w.preimages = chunks ++ w'.preimages ∧ verifyQdayReserve c pk ctx.sigHash chunks = true ∧
        w' = { w with preimages := w'.preimages } := by
  have hlength : ∀ chunks, verifyQdayReserve c pk ctx.sigHash chunks = true → chunks.length = qdaySignatureChunks := by
    intro chunks h
    simp only [verifyQdayReserve,Bool.and_eq_true,decide_eq_true_iff] at h
    exact h.1.1
  simp only [verifyPolicy]
  constructor
  · intro h
    split_ifs at h with hbad
    · simp at h
    · obtain rfl := Except.ok.inj h
      rw [not_or,not_not] at hbad
      exact ⟨_,(List.take_append_drop _ _).symm,hbad.2,rfl⟩
  · rintro ⟨chunks,hsplit,hverify,hw⟩
    have htake : w.preimages.take qdaySignatureChunks = chunks := by
      rw [hsplit,← hlength chunks hverify,List.take_left]
    have hdrop : w.preimages.drop qdaySignatureChunks = w'.preimages := by
      rw [hsplit,← hlength chunks hverify,List.drop_left]
    have hle : ¬ w.preimages.length < qdaySignatureChunks := by
      rw [hsplit,List.length_append,hlength chunks hverify]
      omega
    rw [if_neg (by rw [htake]; simp [hle,hverify]),hdrop,← hw]

theorem verifyPolicy_hash :
    verifyPolicy c ctx (.hash h) w = .ok w' ↔
      ∃ preimage, w.preimages = preimage :: w'.preimages ∧ h = c.sha256 preimage.val ∧
        w' = { w with preimages := w'.preimages } := by
  cases hpre : w.preimages with
  | nil => simp [verifyPolicy,hpre]
  | cons preimage rest =>
    by_cases hhash : h = c.sha256 preimage.val
    · simp only [verifyPolicy,hpre,if_pos hhash,Except.ok.injEq]
      constructor
      · rintro rfl
        exact ⟨preimage,rfl,hhash,rfl⟩
      · rintro ⟨_,heq,-,hw⟩
        rw [hw,(List.cons.inj heq).2]
    · simp only [verifyPolicy,hpre,if_neg hhash,fail_ne_ok,false_iff]
      rintro ⟨preimage',heq,hhash',-⟩
      exact hhash ((List.cons.inj heq).1 ▸ hhash')

theorem verifyPolicy_above {height : UInt64} :
    verifyPolicy c ctx (.above height) w = .ok w' ↔ height ≤ ctx.height ∧ w' = w := by
  simp only [verifyPolicy,verifyAbove]
  split_ifs with h
  · simp only [Except.ok.injEq,eq_comm,true_and,show height ≤ ctx.height from h]
  · simp only [fail_ne_ok,false_iff,not_and]
    exact fun hle => absurd hle h

/-- The two signatures are consumed first; what is left goes to the other sub-policies. -/
theorem verifySubpolicies_hybrid (h₀ : n ≠ 0) (h₁ : n ≠ 1)
    {r : UInt8 × Witness} :
    verifySubpolicies c ctx n (.publicKey k.classical :: .slhdsa k.reserve :: ps) 0 w = .ok r ↔
      ∃ sig sigs chunks preimages, w.sigs = sig :: sigs ∧ w.preimages = chunks ++ preimages ∧
        c.verifyEd25519 k.classical ctx.sigHash.val sig = true ∧
        verifyQdayReserve c k.reserve ctx.sigHash chunks = true ∧
        verifySubpolicies c ctx n ps 2 ⟨sigs, preimages, w.totalPolicies⟩ = .ok r := by
  have htwo : (0 + 1 + 1 : UInt8) = 2 := by decide
  simp only [verifySubpolicies,if_neg h₀.symm,zero_add,if_neg h₁.symm,bind_eq_ok,verifyPolicy_publicKey,
    verifyPolicy_slhdsa]
  constructor
  · rintro ⟨w₁,⟨sig,hsigs,hsig,hw₁⟩,w₂,⟨chunks,hchunks,hreserve,hw₂⟩,hrest⟩
    have htotal : w₂ = ⟨w₁.sigs,w₂.preimages,w.totalPolicies⟩ := by rw [hw₂,hw₁]
    rw [hw₁] at hchunks
    refine ⟨sig,w₁.sigs,chunks,w₂.preimages,hsigs,hchunks,hsig,hreserve,?_⟩
    rw [← htotal]
    exact hrest
  · rintro ⟨sig,sigs,chunks,preimages,hsigs,hchunks,hsig,hreserve,hrest⟩
    exact ⟨{ w with sigs },⟨sig,hsigs,hsig,rfl⟩,⟨sigs,preimages,w.totalPolicies⟩,⟨chunks,hchunks,hreserve,rfl⟩,
      hrest⟩

theorem verify_eq_ok {p : SpendPolicy} :
    p.verify c ctx sigs preimages = .ok () ↔
      ∃ w, verifyPolicy c ctx p ⟨sigs, preimages, 0⟩ = .ok w ∧ w.sigs = [] ∧ w.preimages = [] := by
  simp only [verify,bind_eq_ok,rejectIf_eq_ok,gt_iff_lt,List.length_pos_iff,not_not,exists_const]

theorem verify_native_iff :
    k.policy.verify c ctx sigs preimages = .ok () ↔ HybridSigned c k ctx.sigHash sigs preimages [] := by
  have hsmall : ¬ (0 + 2 > 1024 ∨ 2 > 255) := by omega
  rw [verify_eq_ok,QdayKeys.policy,verifyPolicy]
  simp only [List.length_cons,List.length_nil,zero_add,Nat.reduceAdd,hsmall,if_false,bind_eq_ok,
    verifySubpolicies_hybrid (n := 2) (by decide) (by decide)]
  simp only [verifySubpolicies,Except.ok.injEq]
  constructor
  · rintro ⟨w,⟨r,⟨sig,rest,chunks,pre,rfl,rfl,hsig,hreserve,rfl⟩,hw⟩,hsigs,hpre⟩
    obtain rfl : _ = w := by simpa using hw
    obtain rfl : rest = [] := hsigs
    obtain rfl : pre = [] := hpre
    exact ⟨⟨sig,rfl,hsig⟩,chunks,rfl,hreserve⟩
  · rintro ⟨⟨sig,rfl,hsig⟩,chunks,rfl,hreserve⟩
    exact ⟨⟨[],[],2⟩,⟨_,⟨sig,[],chunks,[],rfl,rfl,hsig,hreserve,rfl⟩,by simp⟩,rfl,rfl⟩

/-- A lock of a swap branch: it is verified as it stands. -/
inductive IsLock : SpendPolicy → Prop where
  | hash (h : Hash256) : IsLock (.hash h)
  | above (height : UInt64) : IsLock (.above height)

theorem verifyPolicy_swapBranch (hlock : IsLock lock) :
    verifyPolicy c ctx (swapBranch k lock) ⟨sigs, preimages, 2⟩ = .ok w ↔
      ∃ sig rest chunks pre, sigs = sig :: rest ∧ preimages = chunks ++ pre ∧
        c.verifyEd25519 k.classical ctx.sigHash.val sig = true ∧
        verifyQdayReserve c k.reserve ctx.sigHash chunks = true ∧
        verifyPolicy c ctx lock ⟨rest, pre, 5⟩ = .ok w := by
  have hsmall : ¬ (2 + 3 > 1024 ∨ 3 > 255) := by omega
  have htwo : ¬ ((2 : UInt8) = 3) := by decide
  have hthree : (2 + 1 : UInt8) = 3 := by decide
  have hlast : ∀ w r, verifySubpolicies c ctx 3 [lock] 2 w = .ok r ↔ ∃ w', verifyPolicy c ctx lock w = .ok w' ∧ (3, w') = r := by
    intro w r
    have hstep : verifySubpolicies c ctx 3 [lock] 2 w = (verifyPolicy c ctx lock w >>= fun w => .ok (3, w)) := by
      cases hlock with
      | hash h => simp only [verifySubpolicies,if_neg htwo,hthree]
      | above height => simp only [verifySubpolicies,if_neg htwo,hthree]
    simp only [hstep,bind_eq_ok,Except.ok.injEq]
  rw [swapBranch,verifyPolicy]
  simp only [List.length_cons,List.length_nil,zero_add,Nat.reduceAdd,hsmall,if_false,bind_eq_ok,
    verifySubpolicies_hybrid (n := 3) (by decide) (by decide),hlast]
  constructor
  · rintro ⟨r,⟨sig,rest,chunks,pre,hsigs,hpre,hsig,hreserve,w',hverify,rfl⟩,hw⟩
    obtain rfl : w' = w := by simpa using hw
    exact ⟨sig,rest,chunks,pre,hsigs,hpre,hsig,hreserve,hverify⟩
  · rintro ⟨sig,rest,chunks,pre,hsigs,hpre,hsig,hreserve,hverify⟩
    exact ⟨(3, w),⟨sig,rest,chunks,pre,hsigs,hpre,hsig,hreserve,w,hverify,rfl⟩,by simp⟩

/-- One branch is shown, the other hidden. -/
def ShownBeside (branch : SpendPolicy) (a : Address) (ps : List SpendPolicy) : Prop :=
  ps = [branch, .opaqueHash a] ∨ ps = [.opaqueHash a, branch]

theorem verify_swap_iff (hps : ShownBeside (swapBranch k lock) a ps) :
    (SpendPolicy.threshold 1 ps).verify c ctx sigs preimages = .ok () ↔
      ∃ w, verifyPolicy c ctx (swapBranch k lock) ⟨sigs, preimages, 2⟩ = .ok w ∧ w.sigs = [] ∧ w.preimages = [] := by
  have hsmall : ¬ (0 + 2 > 1024 ∨ 2 > 255) := by omega
  have hzero : ¬ ((0 : UInt8) = 1) := by decide
  have hone : (0 + 1 : UInt8) = 1 := by decide
  have hrun : ∀ w, verifySubpolicies c ctx 1 ps 0 w =
      (verifyPolicy c ctx (swapBranch k lock) w >>= fun w => .ok (1, w)) := by
    intro w
    rcases hps with rfl | rfl
    · simp only [verifySubpolicies,swapBranch,if_neg hzero,hone]
    · simp only [verifySubpolicies,swapBranch,if_neg hzero,hone]
  have hlength : ps.length = 2 := by
    rcases hps with rfl | rfl
    · rfl
    · rfl
  rw [verify_eq_ok,verifyPolicy]
  simp only [hlength,hsmall,zero_add,if_false,hrun,bind_eq_ok,Except.ok.injEq]
  constructor
  · rintro ⟨w,⟨r,⟨w',hbranch,rfl⟩,hw⟩,hsigs,hpre⟩
    obtain rfl : w' = w := by simpa using hw
    exact ⟨w',hbranch,hsigs,hpre⟩
  · rintro ⟨w,hbranch,hsigs,hpre⟩
    exact ⟨w,⟨(1, w),⟨w,hbranch,rfl⟩,by simp⟩,hsigs,hpre⟩

theorem verify_claim_iff (hps : ShownBeside (swapBranch k (.hash h)) a ps) :
    (SpendPolicy.threshold 1 ps).verify c ctx sigs preimages = .ok () ↔
      ∃ secret, HybridSigned c k ctx.sigHash sigs preimages [secret] ∧ h = c.sha256 secret.val := by
  simp only [verify_swap_iff hps,verifyPolicy_swapBranch (.hash h),verifyPolicy_hash]
  constructor
  · rintro ⟨w,⟨sig,rest,chunks,pre,rfl,rfl,hsig,hreserve,secret,hpre,hhash,hw⟩,hsigs,hempty⟩
    rw [hempty] at hpre
    rw [hw] at hsigs
    obtain rfl : rest = [] := hsigs
    obtain rfl : pre = [secret] := hpre
    exact ⟨secret,⟨⟨sig,rfl,hsig⟩,chunks,rfl,hreserve⟩,hhash⟩
  · rintro ⟨secret,⟨⟨sig,rfl,hsig⟩,chunks,rfl,hreserve⟩,hhash⟩
    exact ⟨⟨[],[],5⟩,⟨sig,[],chunks,[secret],rfl,rfl,hsig,hreserve,secret,rfl,hhash,rfl⟩,rfl,rfl⟩

theorem verify_refund_iff {height : UInt64} (hps : ShownBeside (swapBranch k (.above height)) a ps) :
    (SpendPolicy.threshold 1 ps).verify c ctx sigs preimages = .ok () ↔
      HybridSigned c k ctx.sigHash sigs preimages [] ∧ height ≤ ctx.height := by
  simp only [verify_swap_iff hps,verifyPolicy_swapBranch (.above height),verifyPolicy_above]
  constructor
  · rintro ⟨w,⟨sig,rest,chunks,pre,rfl,rfl,hsig,hreserve,hheight,rfl⟩,hsigs,hempty⟩
    obtain rfl : rest = [] := hsigs
    obtain rfl : pre = [] := hempty
    exact ⟨⟨⟨sig,rfl,hsig⟩,chunks,rfl,hreserve⟩,hheight⟩
  · rintro ⟨⟨⟨sig,rfl,hsig⟩,chunks,rfl,hreserve⟩,hheight⟩
    exact ⟨⟨[],[],5⟩,⟨sig,[],chunks,[],rfl,rfl,hsig,hreserve,hheight,rfl⟩,rfl,rfl⟩

end SpendPolicy

end Verification

section Signing

/-- The signature schemes accept what they have signed. -/
structure QdayPrivateKeys.Correct (c : Crypto) (keys : QdayPrivateKeys) : Prop where
  classical : ∀ msg, c.verifyEd25519 keys.publicKeys.classical msg (keys.signClassical msg) = true
  reserve : ∀ msg context sig, keys.signReserve msg context = .ok sig →
    c.verifySLHDSA keys.publicKeys.reserve msg sig context = true

theorem slice_val_eq {n i m : ℕ} (b : Bytes) (h : i + n ≤ b.length + m) :
    (slice n i b).val = ((b ++ List.replicate m 0).drop i).take n := by
  refine List.ext_getElem? fun j => ?_
  simp only [slice,List.getElem?_take,List.getElem?_append,List.getElem?_drop,List.getElem?_replicate,
    List.length_take,List.length_drop]
  split_ifs <;> first | rfl | omega

theorem flatMap_chunks (b : Bytes) (n m : ℕ) (h : 32 * n ≤ b.length + m) :
    (List.range n).flatMap (fun i => (slice 32 (32*i) b).val) = (b ++ List.replicate m 0).take (32 * n) := by
  induction n with
  | zero => rfl
  | succ n ih =>
    rw [List.range_succ,List.flatMap_append,ih (by omega),List.flatMap_singleton,
      slice_val_eq b (m := m) (by omega),Nat.mul_succ,List.take_add]

theorem verifyQdayReserve_chunks {sig : Bytes} (hlength : sig.length = qdaySignatureSize)
    (hverify : c.verifySLHDSA pk h.val sig qdaySignatureContext = true) :
    verifyQdayReserve c pk h ((List.range qdaySignatureChunks).map fun i => slice 32 (32*i) sig) = true := by
  have hbuf : ((List.range qdaySignatureChunks).map fun i => slice 32 (32*i) sig).flatMap Subtype.val =
      sig ++ List.replicate 16 0 := by
    rw [List.flatMap_map,flatMap_chunks sig qdaySignatureChunks 16 (by rw [hlength]; decide)]
    exact List.take_of_length_le (by rw [List.length_append,List.length_replicate,hlength]; decide)
  simp only [verifyQdayReserve,hbuf,List.length_map,List.length_range,decide_true,Bool.true_and]
  rw [← hlength,List.drop_left,List.take_left,Bool.and_eq_true]
  exact ⟨by simp,hverify⟩

theorem QdayPrivateKeys.Correct.sign {keys : QdayPrivateKeys} (hkeys : keys.Correct c)
    (hsign : keys.sign h = .ok sp) :
    HybridSigned c keys.publicKeys h sp.signatures sp.preimages [] := by
  simp only [QdayPrivateKeys.sign,bind_eq_ok,rejectIf_eq_ok,not_not,pure_eq_ok,
    exists_const] at hsign
  obtain ⟨sig,hsig,hlength,rfl⟩ := hsign
  exact ⟨⟨_,rfl,hkeys.classical h.val⟩,_,(List.append_nil _).symm,
    verifyQdayReserve_chunks hlength (hkeys.reserve _ _ _ hsig)⟩

end Signing

section Branches

namespace SpendPolicy

theorem Agrees.threshold_inv {m : UInt8} {qs : List SpendPolicy}
    (h : Agrees c (.threshold n ps) (.threshold m qs)) : n = m ∧ List.Forall₂ (Agrees c) ps qs := by
  cases h with
  | same => exact ⟨rfl,List.forall₂_same.mpr fun p _ => .same p⟩
  | threshold h => exact ⟨rfl,h⟩

theorem Agrees.lock_inv (hlock : IsLock lock) (hlock' : IsLock lock')
    (h : Agrees c lock lock') : lock = lock' := by
  cases hlock with
  | hash x =>
    cases hlock' with
    | hash y => cases h; rfl
    | above height => cases h
  | above height =>
    cases hlock' with
    | hash y => cases h
    | above height' => cases h; rfl

theorem Agrees.swapBranch_inv {k' : QdayKeys} (hlock : IsLock lock) (hlock' : IsLock lock')
    (h : Agrees c (swapBranch k lock) (swapBranch k' lock')) : k = k' ∧ lock = lock' := by
  obtain ⟨-,hchildren⟩ := h.threshold_inv
  cases k
  cases k'
  simp only [List.forall₂_cons,List.forall₂_nil_left_iff,and_true] at hchildren
  obtain ⟨hclassical,hreserve,hlocks⟩ := hchildren
  refine ⟨?_,hlocks.lock_inv hlock hlock'⟩
  cases hclassical
  cases hreserve
  rfl

end SpendPolicy

namespace QdayAtomicSwap

open SpendPolicy

theorem address_eq_of_hidden (ps qs : List SpendPolicy) (h : ps.map (opaqueAddress c) = qs.map (opaqueAddress c)) :
    (SpendPolicy.threshold 1 ps).address c = (SpendPolicy.threshold 1 qs).address c := by
  have hmap : opaqueAll c ps = opaqueAll c qs := by
    have heq := congrArg (List.map SpendPolicy.opaqueHash) h
    rw [List.map_map,List.map_map] at heq
    rw [opaqueAll_eq_map,opaqueAll_eq_map]
    exact heq
  rw [SpendPolicy.address,SpendPolicy.address,hmap]

/-- The one address of a valid swap. -/
structure HasAddress (c : Crypto) (s : QdayAtomicSwap) (a : Address) : Prop where
  address : s.address c = .ok a
  policy : ∃ p, s.policy = .ok p ∧ p.address c = a
  claimPolicy : ∃ p, s.claimPolicy c = .ok p ∧ p.address c = a
  refundPolicy : ∃ p, s.refundPolicy c = .ok p ∧ p.address c = a

theorem policy_eq {s : QdayAtomicSwap} (h : s.validate = .ok ()) :
    s.policy = .ok (.threshold 1 [s.claimBranch, s.refundBranch]) := by
  rw [policy,h]
  rfl

theorem hasAddress {s : QdayAtomicSwap} (h : s.validate = .ok ()) :
    HasAddress c s ((SpendPolicy.threshold 1 [s.claimBranch, s.refundBranch]).address c) := by
  have hclaim : s.claimPolicy c = .ok (.threshold 1 [s.claimBranch,policyOpaque c s.refundBranch]) := by
    rw [claimPolicy,h]
    rfl
  have hrefund : s.refundPolicy c = .ok (.threshold 1 [policyOpaque c s.claimBranch,s.refundBranch]) := by
    rw [refundPolicy,h]
    rfl
  refine ⟨?_,⟨_,policy_eq h,rfl⟩,⟨_,hclaim,address_eq_of_hidden _ _ rfl⟩,
    ⟨_,hrefund,address_eq_of_hidden _ _ rfl⟩⟩
  rw [address,policy_eq h]

theorem validate_inv {s : QdayAtomicSwap} (h : s.validate = .ok ()) : s.secretHash ≠ default ∧ s.refundHeight ≠ 0 := by
  simp only [validate,bind_unit_eq_ok,rejectIf_eq_ok] at h
  exact ⟨h.2.2.1,h.2.2.2⟩

variable {s : QdayAtomicSwap} {sigHash : Hash256} {keys : QdayPrivateKeys}

theorem claim_inv (hkeys : keys.Correct c) {secret : FixedBytes 32}
    (h : s.claim c sigHash (some keys) secret = .ok sp) :
    HybridSigned c s.recipient sigHash sp.signatures sp.preimages [secret] ∧ s.secretHash = c.sha256 secret.val ∧
      sp.policy = .threshold 1 [s.claimBranch, policyOpaque c s.refundBranch] := by
  simp only [claim,claimPolicy,bind_eq_ok,rejectIf_eq_ok,not_not,pure_eq_ok,
    exists_const] at h
  obtain ⟨hpublic,hsecret,witness,hsign,policy,⟨_,-,rfl⟩,rfl⟩ := h
  obtain ⟨hclassical,chunks,hchunks,hreserve⟩ := hkeys.sign hsign
  rw [hpublic] at hclassical hreserve
  refine ⟨⟨hclassical,chunks,?_,hreserve⟩,hsecret.symm,rfl⟩
  rw [hchunks,List.append_nil]

theorem refundSpend_inv (hkeys : keys.Correct c) (h : s.refundSpend c sigHash (some keys) = .ok sp) :
    HybridSigned c s.refund sigHash sp.signatures sp.preimages [] ∧
      sp.policy = .threshold 1 [policyOpaque c s.claimBranch, s.refundBranch] := by
  simp only [refundSpend,refundPolicy,bind_eq_ok,rejectIf_eq_ok,not_not,pure_eq_ok,
    exists_const] at h
  obtain ⟨hpublic,witness,hsign,policy,⟨_,-,rfl⟩,rfl⟩ := h
  have hsigned := hkeys.sign hsign
  rw [hpublic] at hsigned
  exact ⟨hsigned,rfl⟩

end QdayAtomicSwap

end Branches

end QdayNode
