import QdayNode.Types.Policy

/-!
# What a witness must hold

`SpendPolicy.Verify` takes signatures and preimages from the front of two lists while it
walks through the policy, and accepts only if both lists are used up.  How much it takes
depends on the policy alone, so a policy fixes the size of its witnesses.
-/
namespace QdayNode
open ByteString Outcome

namespace SpendPolicy

section Counting

/-- The policies of a tree, the tree itself included.  There is nothing below an opaque hash. -/
inductive Inside (q : SpendPolicy) : SpendPolicy → Prop
  | here : Inside q q
  | child {n : UInt8} {subpolicies : List SpendPolicy} {p : SpendPolicy} (hp : p ∈ subpolicies) (h : Inside q p) :
      Inside q (.threshold n subpolicies)

def isPublicKey : SpendPolicy → Bool
  | .publicKey _ => true
  | _ => false

def isSLHDSA : SpendPolicy → Bool
  | .slhdsa _ => true
  | _ => false

def isHash : SpendPolicy → Bool
  | .hash _ => true
  | _ => false

mutual
def leaves (kind : SpendPolicy → Bool) : SpendPolicy → ℕ
  | .threshold _ subpolicies => leavesAll kind subpolicies
  | .above height => (kind (.above height)).toNat
  | .after t => (kind (.after t)).toNat
  | .publicKey pk => (kind (.publicKey pk)).toNat
  | .slhdsa pk => (kind (.slhdsa pk)).toNat
  | .hash h => (kind (.hash h)).toNat
  | .opaqueHash a => (kind (.opaqueHash a)).toNat
  | .unlockConditions uc => (kind (.unlockConditions uc)).toNat

def leavesAll (kind : SpendPolicy → Bool) : List SpendPolicy → ℕ
  | [] => 0
  | p :: ps => leaves kind p + leavesAll kind ps
end

/-- The signatures that unlock conditions ask for; they are never below a threshold. -/
def rootSignatures : SpendPolicy → ℕ
  | .unlockConditions uc => uc.signaturesRequired.toNat
  | _ => 0

def signatureCount (p : SpendPolicy) : ℕ := p.leaves isPublicKey + p.rootSignatures

def preimageCount (p : SpendPolicy) : ℕ := qdaySignatureChunks * p.leaves isSLHDSA + p.leaves isHash

end Counting

section Consumption

variable {c : Crypto} {ctx : SpendContext} {w w' : Witness} {p : SpendPolicy}

/-- What is taken from a witness between `w` and `w'`. -/
structure Takes (sigs preimages : ℕ) (w w' : Witness) : Prop where
  sigs : w.sigs.length = sigs + w'.sigs.length
  preimages : w.preimages.length = preimages + w'.preimages.length

theorem Takes.trans {sigs sigs' preimages preimages' : ℕ} {w₁ w₂ : Witness} (h : Takes sigs preimages w w₁)
    (h' : Takes sigs' preimages' w₁ w₂) : Takes (sigs + sigs') (preimages + preimages') w w₂ := by
  constructor
  · rw [h.sigs,h'.sigs,Nat.add_assoc]
  · rw [h.preimages,h'.preimages,Nat.add_assoc]

/-- A threshold with exactly as many shown sub-policies as it asks for. -/
def ExactThresholds (p : SpendPolicy) : Prop :=
  ∀ n subpolicies, Inside (.threshold n subpolicies) p → n.toNat = subpolicies.countP fun q => !q.isOpaque

theorem exactThresholds_leaf (h : ∀ n subpolicies, p ≠ .threshold n subpolicies) : p.ExactThresholds := by
  intro n subpolicies hinside
  cases hinside with
  | here => exact absurd rfl (h n subpolicies)
  | child _ _ => exact absurd rfl (h _ _)

theorem takes_verifyAbove {height : UInt64} (h : verifyAbove ctx height w = .ok w') : w' = w := by
  rw [verifyAbove] at h
  split_ifs at h
  · exact (Except.ok.inj h).symm
  · cases h

/-- The key loop takes one signature for each step that it counts down. -/
theorem takes_verifyKeys {pks : List UnlockKey} {required required' : UInt64}
    (h : verifyKeys c ctx pks required w = .ok (required', w')) :
    required'.toNat ≤ required.toNat ∧ Takes (required.toNat - required'.toNat) 0 w w' := by
  induction pks generalizing required w with
  | nil =>
    obtain ⟨rfl,rfl⟩ := ok_pair h
    exact ⟨le_rfl,by simp,by simp⟩
  | cons pk pks ih =>
    rw [verifyKeys] at h
    dsimp only at h
    by_cases hstop : required = 0 ∨ required.toNat > (pk :: pks).length ∨ required.toNat > w.sigs.length
    · rw [if_pos hstop] at h
      obtain ⟨rfl,rfl⟩ := ok_pair h
      exact ⟨le_rfl,by simp,by simp⟩
    · rw [if_neg hstop] at h
      have hpos : required.toNat ≠ 0 := fun hzero => hstop (.inl (UInt64.toNat_inj.mp hzero))
      have henough : required.toNat ≤ w.sigs.length := not_lt.mp fun hlt => hstop (.inr (.inr hlt))
      have htaken : verifyKeys c ctx pks (required - 1) { w with sigs := w.sigs.tail } = .ok (required', w') →
          required'.toNat ≤ required.toNat ∧ Takes (required.toNat - required'.toNat) 0 w w' := by
        intro hnext
        have hone : (required - 1).toNat = required.toNat - 1 :=
          UInt64.toNat_sub_of_le _ _ (UInt64.le_iff_toNat_le.mpr (Nat.one_le_iff_ne_zero.mpr hpos))
        obtain ⟨hle,htakes⟩ := ih hnext
        have hsigs := htakes.sigs
        have hpreimages := htakes.preimages
        rw [List.length_tail] at hsigs
        refine ⟨by omega,by omega,hpreimages⟩
      split_ifs at h
      · cases h
      · exact htaken h
      · exact ih h
      · exact htaken h

mutual
/-- What a policy takes depends on the policy alone. -/
theorem takes_verifyPolicy (p : SpendPolicy) (w w' : Witness) (h : verifyPolicy c ctx p w = .ok w') :
    Takes p.signatureCount p.preimageCount w w' ∧ p.ExactThresholds := by
  cases p with
  | above height =>
    obtain rfl := takes_verifyAbove h
    exact ⟨⟨by simp [signatureCount,leaves,isPublicKey,rootSignatures],
      by simp [preimageCount,leaves,isSLHDSA,isHash]⟩,exactThresholds_leaf (by simp)⟩
  | after t =>
    rw [verifyPolicy] at h
    split_ifs at h
    · obtain rfl := Except.ok.inj h
      exact ⟨⟨by simp [signatureCount,leaves,isPublicKey,rootSignatures],
        by simp [preimageCount,leaves,isSLHDSA,isHash]⟩,exactThresholds_leaf (by simp)⟩
    · cases h
  | publicKey pk =>
    rw [verifyPolicy] at h
    cases hsigs : w.sigs with
    | nil =>
      rw [hsigs] at h
      cases h
    | cons sig rest =>
      rw [hsigs] at h
      dsimp only at h
      split_ifs at h
      · obtain rfl := Except.ok.inj h
        exact ⟨⟨by simp [hsigs,signatureCount,leaves,isPublicKey,rootSignatures,Nat.add_comm],
          by simp [preimageCount,leaves,isSLHDSA,isHash]⟩,exactThresholds_leaf (by simp)⟩
      · cases h
  | slhdsa pk =>
    rw [verifyPolicy] at h
    split_ifs at h with hshort
    · cases h
    · obtain rfl := Except.ok.inj h
      have henough : qdaySignatureChunks ≤ w.preimages.length := not_lt.mp fun hlt => hshort (.inl hlt)
      refine ⟨⟨by simp [signatureCount,leaves,isPublicKey,rootSignatures],?_⟩,exactThresholds_leaf (by simp)⟩
      simp only [preimageCount,leaves,isSLHDSA,isHash,List.length_drop,Bool.toNat_true,Bool.toNat_false]
      omega
  | hash x =>
    rw [verifyPolicy] at h
    cases hpreimages : w.preimages with
    | nil =>
      rw [hpreimages] at h
      cases h
    | cons preimage rest =>
      rw [hpreimages] at h
      dsimp only at h
      split_ifs at h
      · obtain rfl := Except.ok.inj h
        exact ⟨⟨by simp [signatureCount,leaves,isPublicKey,rootSignatures],
          by simp [hpreimages,preimageCount,leaves,isSLHDSA,isHash,Nat.add_comm]⟩,exactThresholds_leaf (by simp)⟩
      · cases h
  | threshold n subpolicies =>
    rw [verifyPolicy] at h
    dsimp only at h
    split_ifs at h
    · cases h
    · rw [bind_eq_ok] at h
      obtain ⟨⟨satisfied,w₁⟩,hsub,h⟩ := h
      dsimp only at h
      split_ifs at h with hreached
      · obtain rfl := Except.ok.inj h
        subst hreached
        obtain ⟨htakes,hcount,-,hexact⟩ := takes_verifySubpolicies _ subpolicies 0 _ _ _ (Nat.zero_le _) hsub
        refine ⟨⟨htakes.sigs,htakes.preimages⟩,?_⟩
        intro m ps hinside
        cases hinside with
        | here => simpa using hcount
        | child hp hbelow => exact hexact _ hp m ps hbelow
      · cases h
  | opaqueHash a => cases h
  | unlockConditions uc =>
    rw [verifyPolicy,bind_eq_ok] at h
    obtain ⟨w₁,habove,h⟩ := h
    obtain rfl := takes_verifyAbove habove
    rw [bind_eq_ok] at h
    obtain ⟨⟨required,w₂⟩,hkeys,h⟩ := h
    obtain ⟨-,htakes⟩ := takes_verifyKeys hkeys
    dsimp only at h
    split_ifs at h with hzero
    · obtain rfl := Except.ok.inj h
      subst hzero
      refine ⟨⟨?_,?_⟩,exactThresholds_leaf (by simp)⟩
      · have hsigs := htakes.sigs
        simpa [signatureCount,leaves,isPublicKey,rootSignatures] using hsigs
      · simpa [preimageCount,leaves,isSLHDSA,isHash] using htakes.preimages
    · cases h

theorem takes_verifySubpolicies (n : UInt8) (ps : List SpendPolicy) (satisfied satisfied' : UInt8) (w w' : Witness)
    (hle : satisfied.toNat ≤ n.toNat) (h : verifySubpolicies c ctx n ps satisfied w = .ok (satisfied', w')) :
    Takes (leavesAll isPublicKey ps) (qdaySignatureChunks * leavesAll isSLHDSA ps + leavesAll isHash ps) w w' ∧
      satisfied'.toNat = satisfied.toNat + ps.countP (fun q => !q.isOpaque) ∧ satisfied'.toNat ≤ n.toNat ∧
      ∀ q ∈ ps, q.ExactThresholds := by
  cases ps with
  | nil =>
    obtain ⟨rfl,rfl⟩ := ok_pair h
    exact ⟨⟨by simp [leavesAll],by simp [leavesAll]⟩,by simp,hle,by simp⟩
  | cons p ps =>
    -- the sub-policies that are shown are verified one after the other
    have hshown : p.isOpaque = false → p.rootSignatures = 0 → (if satisfied = n then fail "threshold exceeded"
        else do
          let w ← verifyPolicy c ctx p w
          verifySubpolicies c ctx n ps (satisfied + 1) w : Outcome (UInt8 × Witness)) = .ok (satisfied', w') →
        Takes (leavesAll isPublicKey (p :: ps))
          (qdaySignatureChunks * leavesAll isSLHDSA (p :: ps) + leavesAll isHash (p :: ps)) w w' ∧
        satisfied'.toNat = satisfied.toNat + (p :: ps).countP (fun q => !q.isOpaque) ∧ satisfied'.toNat ≤ n.toNat ∧
        ∀ q ∈ p :: ps, q.ExactThresholds := by
      intro hopen hroot hrun
      split_ifs at hrun with hfull
      · cases hrun
      · rw [bind_eq_ok] at hrun
        obtain ⟨w₁,hp,hrest⟩ := hrun
        have hne : satisfied.toNat ≠ n.toNat := fun heq => hfull (UInt8.toNat_inj.mp heq)
        have hbound := n.toNat_lt
        have hnext : (satisfied + 1).toNat = satisfied.toNat + 1 := by
          rw [UInt8.toNat_add]
          exact Nat.mod_eq_of_lt (by simp only [UInt8.reduceToNat]; omega)
        obtain ⟨htakes,hexact⟩ := takes_verifyPolicy p w w₁ hp
        obtain ⟨htakes',hcount,hle',hexact'⟩ :=
          takes_verifySubpolicies n ps (satisfied + 1) satisfied' w₁ w' (by omega) hrest
        have hboth := htakes.trans htakes'
        refine ⟨⟨?_,?_⟩,?_,hle',List.forall_mem_cons.mpr ⟨hexact,hexact'⟩⟩
        · rw [hboth.sigs,signatureCount,hroot,leavesAll]
          rfl
        · rw [hboth.preimages,preimageCount,leavesAll,leavesAll]
          ring
        · rw [hcount,hnext,List.countP_cons_of_pos (by simp [hopen])]
          omega
    cases p with
    | unlockConditions uc => cases h
    | opaqueHash a =>
      obtain ⟨htakes,hcount,hle',hexact⟩ := takes_verifySubpolicies n ps satisfied satisfied' w w' hle h
      refine ⟨⟨?_,?_⟩,?_,hle',List.forall_mem_cons.mpr ⟨exactThresholds_leaf (by simp),hexact⟩⟩
      · simpa [leavesAll,leaves,isPublicKey] using htakes.sigs
      · simpa [leavesAll,leaves,isSLHDSA,isHash] using htakes.preimages
      · rw [hcount,List.countP_cons_of_neg (by simp [isOpaque])]
    | above height => exact hshown rfl rfl h
    | after t => exact hshown rfl rfl h
    | publicKey pk => exact hshown rfl rfl h
    | slhdsa pk => exact hshown rfl rfl h
    | hash x => exact hshown rfl rfl h
    | threshold m subpolicies => exact hshown rfl rfl h
end

theorem verify_counts {sigs : List Signature} {preimages : List (FixedBytes 32)} (h : p.verify c ctx sigs preimages = .ok ()) :
    sigs.length = p.signatureCount ∧ preimages.length = p.preimageCount ∧ p.ExactThresholds := by
  simp only [verify,bind_eq_ok,rejectIf_eq_ok] at h
  obtain ⟨w,hrun,-,hsigs,hpreimages⟩ := h
  obtain ⟨htakes,hexact⟩ := takes_verifyPolicy p _ w hrun
  refine ⟨?_,?_,hexact⟩
  · have hlen := htakes.sigs
    dsimp only at hlen
    omega
  · have hlen := htakes.preimages
    dsimp only at hlen
    omega

/-- An accepted witness has one signature for each key of the policy, the signatures that unlock conditions at its root ask for,
and the chunks and preimages of its leaves; no list can be cut or continued, and every threshold is met exactly. -/
theorem verify_exact {sigs : List Signature} {preimages : List (FixedBytes 32)} (h : p.verify c ctx sigs preimages = .ok ()) :
    sigs.length = p.leaves isPublicKey + p.rootSignatures ∧
      preimages.length = qdaySignatureChunks * p.leaves isSLHDSA + p.leaves isHash ∧
      (∀ sigs', sigs' <+: sigs ∨ sigs <+: sigs' → p.verify c ctx sigs' preimages = .ok () → sigs' = sigs) ∧
      (∀ preimages', preimages' <+: preimages ∨ preimages <+: preimages' → p.verify c ctx sigs preimages' = .ok () →
        preimages' = preimages) ∧
      ∀ n subpolicies, Inside (.threshold n subpolicies) p → n.toNat = subpolicies.countP fun q => !q.isOpaque := by
  obtain ⟨hsigs,hpreimages,hexact⟩ := verify_counts h
  refine ⟨hsigs,hpreimages,?_,?_,hexact⟩
  · intro sigs' hlead hother
    obtain ⟨hsigs',-,-⟩ := verify_counts hother
    rcases hlead with hshorter | hlonger
    · exact hshorter.eq_of_length (hsigs'.trans hsigs.symm)
    · exact (hlonger.eq_of_length (hsigs.trans hsigs'.symm)).symm
  · intro preimages' hlead hother
    obtain ⟨-,hpreimages',-⟩ := verify_counts hother
    rcases hlead with hshorter | hlonger
    · exact hshorter.eq_of_length (hpreimages'.trans hpreimages.symm)
    · exact (hlonger.eq_of_length (hpreimages.trans hpreimages'.symm)).symm

def sampleLocks : SpendPolicy :=
  .threshold 2 [.publicKey default, .threshold 1 [.hash (sampleCrypto.sha256 (default : FixedBytes 32).val), .opaqueHash default]]

theorem verify_exact_sample : sampleLocks.verify sampleCrypto ⟨0, default, default⟩ [default] [default] = .ok () ∧
    [(default : Signature)].length = sampleLocks.leaves isPublicKey + sampleLocks.rootSignatures ∧
      [(default : FixedBytes 32)].length = qdaySignatureChunks * sampleLocks.leaves isSLHDSA + sampleLocks.leaves isHash ∧
      (∀ sigs', sigs' <+: [default] ∨ [default] <+: sigs' →
        sampleLocks.verify sampleCrypto ⟨0, default, default⟩ sigs' [default] = .ok () → sigs' = [default]) ∧
      (∀ preimages', preimages' <+: [default] ∨ [default] <+: preimages' →
        sampleLocks.verify sampleCrypto ⟨0, default, default⟩ [default] preimages' = .ok () → preimages' = [default]) ∧
      ∀ n subpolicies, Inside (.threshold n subpolicies) sampleLocks → n.toNat = subpolicies.countP fun q => !q.isOpaque := by
  have haccepted : sampleLocks.verify sampleCrypto ⟨0,default,default⟩ [default] [default] = .ok () := by decide +kernel
  exact ⟨haccepted,verify_exact haccepted⟩

end Consumption

end SpendPolicy

end QdayNode
