import QdayNode.Manager.ProofPaths

/-!
# Catching up with the chain

`updatePendingProofs` of `node/qday/rebroadcast.go` takes the proofs of a saved set from
the block they were made at to a block of the best chain, in steps of at most 72 blocks:
forward along the best chain, or back from an abandoned branch until the best chain is met.
The chain does not change meanwhile, so all steps see one store.
-/
namespace QdayNode
open Ancestry ByteString Procedure Outcome

section Definitions

variable (cfg : Config) (st : Store)

/-- The inner loop: goes back `n` blocks, or to the first one on the best chain that is not above the target. -/
def walkBack (target : ChainIndex) : ℕ → ChainIndex → Outcome ChainIndex
  | 0, next => .ok next
  | n+1, next =>
    if next.height = 0 then fail "pending transaction basis is outside this chain"
    else
      match st.block next.id with
      | none => fail "pending transaction basis is not available yet"
      | some (block, _) =>
        let next : ChainIndex := ⟨next.height - 1, block.parentID⟩
        if st.OnBest next ∧ next.height ≤ target.height then .ok next else walkBack target n next

def nextBasis (source target : ChainIndex) : Outcome ChainIndex :=
  if st.OnBest source ∧ source.height < target.height then
    match st.bestIndex (min (source.height + 72) target.height) with
    | none => fail "pending transaction is waiting for chain synchronization"
    | some next => .ok next
  else if st.OnBest source ∧ source.height = target.height then .ok target
  else walkBack st target 72 source

def Manager.updateV2TransactionSet (txns : List V2Transaction) (source target : ChainIndex) : Outcome (List V2Transaction) :=
  if source = target then .ok txns else Manager.updateV2TransactionProofs cfg st txns source target

def pendingStep (txns : List V2Transaction) (source target : ChainIndex) : Outcome (ChainIndex × List V2Transaction) := do
  let next ← nextBasis st source target
  let txns ← Manager.updateV2TransactionSet cfg st txns source next
  return (next, txns)

/-- `updatePendingProofs`: nothing if the loop has not come to an end after `fuel` steps. -/
def updatePendingProofs (fuel : ℕ) (txns : List V2Transaction) (source target : ChainIndex) :
    Option (Outcome (List V2Transaction)) :=
  if source = target then some (.ok txns)
  else
    match fuel with
    | 0 => none
    | fuel+1 =>
      match pendingStep cfg st txns source target with
      | .error fault => some (.error fault)
      | .ok (next, txns) =>
        if txns.length = 0 then some (.ok txns)
        else if st.OnBest target then updatePendingProofs fuel txns next target
        else some (fail "chain changed while updating pending transaction proofs")

end Definitions

section Steps

theorem toNat_min (a b : UInt64) : (min a b).toNat = min a.toNat b.toNat := by
  change (if a ≤ b then a else b).toNat = _
  split_ifs with hle
  · rw [UInt64.le_iff_toNat_le] at hle
    omega
  · rw [UInt64.le_iff_toNat_le] at hle
    omega

variable {cfg : Config} {m : QdayManifest} {S : Set Bytes} {M : Manager} {bl : List Block} {ch : Chain}
  {source target next : ChainIndex} {txns out : List V2Transaction}

variable {c : Crypto} {log : List Ingestion} {st : Store}

theorem Store.Sound.parent_of_block {i : ChainIndex} {b : Block}
    {bs : Option V1BlockSupplement} (h : st.Sound c m log) (hblock : st.block i.id = some (b, bs)) :
    st.parentIndex i = some ⟨i.height - 1, b.parentID⟩ := by
  obtain ⟨sb,hsb,hbody,-⟩ := validated_iff_of_block hblock
  have hheader : sb.header.parentID = b.parentID := by
    by_cases hvalid : st.Validated i.id
    · obtain ⟨bl,ch,hbl,hid,hheld⟩ := h.validated i.id hvalid
      obtain ⟨sb',hsb',hheader,hnone | ⟨hsome,-⟩⟩ := (hheld.tip hbl.run).block
      · rw [hid,hsb] at hsb'
        rw [← Option.some.inj hsb',hbody] at hnone
        cases hnone
      · rw [hid,hsb] at hsb'
        obtain rfl := Option.some.inj hsb'
        rw [hbody] at hsome
        rw [hheader,← Option.some.inj hsome]
        rfl
    · obtain ⟨b',-,-,hheader,hsome⟩ := h.pending i.id sb hsb hvalid
      rw [hbody] at hsome
      rw [hheader,← Option.some.inj hsome]
      rfl
  rw [Store.parentIndex,Store.header,hsb,Option.map_some,Option.map_some,hheader]

/-- Where the walk back leads: past indices that are not below the target, but for the first. -/
theorem walkBack_down (h : st.Sound c m log) {n : ℕ}
    (hrun : walkBack st target n source = .ok next) :
    ∃ l, Down st.parentIndex source l next ∧ l.length ≤ n ∧ (n ≠ 0 → l ≠ []) ∧
      next.height.toNat + l.length = source.height.toNat ∧
      ∀ y ∈ l, y = source ∨ ¬ (st.OnBest y ∧ y.height ≤ target.height) := by
  induction n generalizing source with
  | zero =>
    obtain rfl : source = next := Except.ok.inj hrun
    exact ⟨[],Down.refl _,le_rfl,by simp,by simp,by simp⟩
  | succ n ih =>
    rw [walkBack] at hrun
    split_ifs at hrun with hzero
    · cases hrun
    split at hrun
    · cases hrun
    · rename_i block bs hblock
      have hlink := h.parent_of_block hblock
      have hheight : (source.height - 1).toNat + 1 = source.height.toNat := by
        have hpos : source.height.toNat ≠ 0 := fun hh => hzero (UInt64.toNat_inj.mp hh)
        rw [UInt64.toNat_sub_of_le _ _ (UInt64.le_iff_toNat_le.mpr (by simpa using Nat.one_le_iff_ne_zero.mpr hpos))]
        simp only [UInt64.toNat_one]
        omega
      dsimp only at hrun
      split_ifs at hrun with hmet
      · obtain rfl := Except.ok.inj hrun
        exact ⟨[source],Down.step hlink (Down.refl _),by simp,by simp,hheight,by simp⟩
      · obtain ⟨l,hl,hlen,-,hsum,hapart⟩ := ih hrun
        refine ⟨source :: l,Down.step hlink hl,by simpa using hlen,by simp,?_,fun y hy => ?_⟩
        · rw [List.length_cons]
          dsimp only at hsum
          omega
        · rcases List.mem_cons.mp hy with rfl | hy
          · exact .inl rfl
          · rcases hapart y hy with rfl | hnot
            · exact .inr hmet
            · exact .inr hnot

theorem updatePendingProofs_self (fuel : ℕ) (txns : List V2Transaction) (i : ChainIndex) :
    updatePendingProofs cfg st fuel txns i i = some (.ok txns) := by
  cases fuel with
  | zero => rw [updatePendingProofs,if_pos rfl]
  | succ fuel => rw [updatePendingProofs,if_pos rfl]

variable (hset : Setting cfg.crypto m S M.ingested) (h : M.At cfg m bl ch)
include hset h

/-- What a step can do. -/
theorem nextBasis_cases (htarget : M.store.OnBest target) (hne : source ≠ target)
    (hsource : M.store.Member (m.genesis.id cfg.crypto) source) (hrun : nextBasis M.store source target = .ok next) :
    (M.store.OnBest source ∧ M.store.OnBest next ∧ source.height.toNat < next.height.toNat ∧
      next.height.toNat ≤ target.height.toNat ∧ next.height.toNat ≤ source.height.toNat + 72) ∨
    ((M.store.OnBest source → target.height.toNat < source.height.toNat) ∧ next.height.toNat < source.height.toNat ∧
      M.store.Member (m.genesis.id cfg.crypto) next ∧
      ∃ l, Down M.store.parentIndex source l next ∧ l ≠ [] ∧ l.length ≤ 72 ∧ ∀ y ∈ l, ∀ m', ¬ Down M.store.parentIndex target m' y) := by
  have htree := h.sound.tree
  have htm := h.member_of_onBest hset htarget
  unfold nextBasis at hrun
  split_ifs at hrun with hforward hsame
  · left
    obtain ⟨hbest,hlt⟩ := hforward
    have hshort := h.sound.short source hsource
    have hcount := hset.count
    have hadd : (source.height + 72).toNat = source.height.toNat + 72 := by
      rw [UInt64.toNat_add]
      exact Nat.mod_eq_of_lt (by change _ + 72 < _; omega)
    split at hrun
    · cases hrun
    · rename_i i hi
      obtain rfl := Except.ok.inj hrun
      have hheight : i.height = min (source.height + 72) target.height := by
        obtain ⟨id,-,hid⟩ := Option.map_eq_some_iff.mp hi
        rw [← hid]
      have hmin : i.height.toNat = min (source.height.toNat + 72) target.height.toNat := by
        rw [hheight,toNat_min,hadd]
      rw [UInt64.lt_iff_toNat_lt] at hlt
      exact ⟨hbest,by rw [Store.OnBest,hheight,hi],by omega,by omega,by omega⟩
  · obtain ⟨hbest,hheight⟩ := hsame
    rw [Store.OnBest,hheight,htarget] at hbest
    exact absurd (Option.some.inj hbest).symm hne
  · right
    have habove : M.store.OnBest source → target.height.toNat < source.height.toNat := by
      intro hbest
      rcases lt_trichotomy source.height.toNat target.height.toNat with hlt | heq | hgt
      · exact absurd ⟨hbest,UInt64.lt_iff_toNat_lt.mpr hlt⟩ hforward
      · exact absurd ⟨hbest,UInt64.toNat_inj.mp heq⟩ hsame
      · exact hgt
    obtain ⟨l,hl,hlen,hnonempty,hsum,hapart⟩ := walkBack_down h.sound hrun
    have hl' := List.length_pos_iff.mpr (hnonempty (by decide))
    have hnext : M.store.Member (m.genesis.id cfg.crypto) next := by
      rcases htree.down_member hsource hl with ⟨hmember,-⟩ | ⟨-,hbad⟩
      · exact hmember
      · omega
    refine ⟨habove,by omega,hnext,l,hl,hnonempty (by decide),hlen,fun y hy m' hm' => ?_⟩
    -- below the target lies the best chain only
    have hy' : M.store.Member (m.genesis.id cfg.crypto) y := by
      obtain ⟨p,q,hsplit,hp,-⟩ := hl.of_mem hy
      rcases htree.down_member hsource hp with ⟨hmember,-⟩ | ⟨-,hbad⟩
      · exact hmember
      · have hcount := congrArg List.length hsplit
        rw [List.length_append] at hcount
        omega
    have hbest := h.onBest_of_down hset htarget hm' hy'
    have hheight := htree.length_eq htm hy' hm'
    rcases hapart y hy with rfl | hnot
    · have hlt := habove hbest
      omega
    · exact hnot ⟨hbest,UInt64.le_iff_toNat_le.mpr (by omega)⟩

omit hset h in
theorem heights_again (raw : List V2Transaction) (height : UInt64) :
    updateQdayEphemeralHeights (updateQdayEphemeralHeights raw height) height = updateQdayEphemeralHeights raw height :=
  (twins_heights raw height).heights height

/-- A step of the loop and what is left of the way make the way. -/
theorem step_carried {txns₁ : List V2Transaction} (htarget : M.store.OnBest target) (hne : source ≠ target)
    (hsource : M.store.Member (m.genesis.id cfg.crypto) source) (hnext : nextBasis M.store source target = .ok next)
    (hset₁ : Manager.updateV2TransactionSet cfg M.store txns source next = .ok txns₁) :
    M.store.Member (m.genesis.id cfg.crypto) next ∧ Manager.ValidAt cfg M.store txns source ∧
      updateQdayEphemeralHeights txns₁ (next.height + 1) = txns₁ ∧
      (∀ out, CarriedTo cfg M.store (m.genesis.id cfg.crypto) next target txns₁ out →
        CarriedTo cfg M.store (m.genesis.id cfg.crypto) source target txns out) ∧
      ∃ bl' ch', Branch cfg.crypto m M.ingested bl' ch' ∧ M.store.Held cfg.crypto m bl' ∧ ch'.state.index = next := by
  have htree := h.sound.tree
  have htm := h.member_of_onBest hset htarget
  have hcases := nextBasis_cases hset h htarget hne hsource hnext
  have hmove : source ≠ next := by
    rintro rfl
    rcases hcases with ⟨-,-,hlt,-⟩ | ⟨-,hlt,-⟩
    · exact absurd hlt (lt_irrefl _)
    · exact absurd hlt (lt_irrefl _)
  rw [Manager.updateV2TransactionSet,if_neg hmove,Manager.updateV2TransactionProofs_eq] at hset₁
  rcases hcases with ⟨hbest,hnextBest,hlt,hle,hshort⟩ | ⟨-,-,hmember,l,hl,hnonempty,hlen,hapart⟩
  · have hmember := h.member_of_onBest hset hnextBest
    obtain ⟨l,hl⟩ := h.down_best hset hbest hnextBest (UInt64.le_iff_toNat_le.mpr hlt.le)
    obtain ⟨l',hl'⟩ := h.down_best hset hnextBest htarget (UInt64.le_iff_toNat_le.mpr hle)
    have hlen := htree.length_eq hmember hsource hl
    obtain ⟨hvalid,mid,raw,hmid,hraw,rfl⟩ := (updateProofsWithin_of_meets htree hsource hmember hmove (meets_up hsource hl)
      (by rw [List.length_nil]; omega)).mp hset₁
    obtain rfl : txns = mid := Except.ok.inj hmid
    obtain ⟨pre,chn,hpre,hchn,hindex⟩ := (h.onBest_iff hset).mp hnextBest
    exact ⟨hmember,hvalid,heights_again _ _,
      fun _ hrest => (hrest.of_twins (twins_heights _ _)).forward htree hsource hmember hl hl' htm hraw,
      pre,chn,hchn,h.held.of_prefix hpre,hindex⟩
  · obtain ⟨hvalid,mid,raw,hmid,hraw,rfl⟩ := (updateProofsWithin_of_meets htree hsource hmember hmove (meets_down hmember hl)
      (by rw [List.length_nil]; omega)).mp hset₁
    obtain rfl : mid = raw := Except.ok.inj hraw
    refine ⟨hmember,hvalid,heights_again _ _,fun _ hrest => (hrest.of_twins (twins_heights _ _)).back hl hapart hmid,?_⟩
    -- the first block could be reverted, so it has been validated, and what lies below it too
    have hvalidated : M.store.Validated source.id := by
      cases hl with
      | refl => exact absurd rfl hnonempty
      | step =>
        rw [List.foldlM_cons,bind_eq_ok] at hmid
        obtain ⟨txns₂,hfirst,-⟩ := hmid
        rw [Manager.revertSet,bind_eq_ok] at hfirst
        obtain ⟨found,hfound,-⟩ := hfirst
        rw [Manager.pathBlock] at hfound
        split at hfound
        · cases hfound
        · cases hfound
        · rename_i b bs cs hblock
          obtain ⟨⟨b',bs'⟩,hp,hparent⟩ := Option.bind_eq_some_iff.mp hblock
          obtain ⟨cs',-,hpair⟩ := Option.bind_eq_some_iff.mp hparent
          obtain ⟨-,hpair⟩ := Prod.mk.inj (Option.some.inj hpair)
          obtain ⟨sb,-,-,hiff⟩ := validated_iff_of_block hp
          rw [hiff,(Prod.mk.inj hpair).1]
          rfl
    obtain ⟨bl',ch',hch',hid,hheld⟩ := h.sound.validated source.id hvalidated
    have hindex := htree.member_unique (hch'.member hset hheld) hsource hid
    rw [← hindex] at hl
    obtain ⟨pre,post,chn,rfl,-,hchn,hnextIndex⟩ := hch'.of_down hset htree hheld hl hmember
    exact ⟨pre,chn,hchn,hheld.of_prefix (List.prefix_append _ _),hnextIndex⟩

theorem updatePendingProofs_carried (hbodies : ∀ id, ¬ M.store.Pruned id) (hordered : ∀ b ∈ taken M.ingested, Ordered cfg b)
    (hroom : ∀ bl ch, Branch cfg.crypto m M.ingested bl ch → ch.leaves.length ≤ 2^63) (htarget : M.store.OnBest target)
    {fuel : ℕ} (hne : source ≠ target) (hsource : M.store.Member (m.genesis.id cfg.crypto) source)
    (hrun : updatePendingProofs cfg M.store fuel txns source target = some (.ok out)) :
    CarriedTo cfg M.store (m.genesis.id cfg.crypto) source target txns out ∧ Manager.ValidAt cfg M.store txns source ∧
      updateQdayEphemeralHeights out (target.height + 1) = out := by
  induction fuel generalizing source txns with
  | zero =>
    rw [updatePendingProofs,if_neg hne] at hrun
    cases hrun
  | succ fuel ih =>
    rw [updatePendingProofs,if_neg hne] at hrun
    split at hrun
    · cases hrun
    · rename_i next txns₁ hstep
      simp only [pendingStep,bind_eq_ok,pure_eq_ok,Prod.mk.injEq] at hstep
      obtain ⟨next',hnext,txns₂,hset₁,rfl,rfl⟩ := hstep
      obtain ⟨hmember,hvalid,hheights,hcarry,bl',ch',hch',hheld,hindex⟩ :=
        step_carried hset h htarget hne hsource hnext hset₁
      split_ifs at hrun with hempty
      · -- nothing is left to be carried
        obtain rfl := Except.ok.inj (Option.some.inj hrun)
        obtain rfl := List.length_eq_zero_iff.mp hempty
        have hnil := CarriedTo.nil hset h hbodies hordered hroom hch' hheld htarget
        rw [hindex] at hnil
        exact ⟨hcarry _ hnil,hvalid,rfl⟩
      · by_cases hend : next' = target
        · subst hend
          rw [updatePendingProofs_self] at hrun
          obtain rfl := Except.ok.inj (Option.some.inj hrun)
          refine ⟨hcarry _ ⟨[],[],next',txns₂,txns₂,meets_down hmember (Down.refl _),rfl,rfl,?_⟩,hvalid,hheights⟩
          exact List.forall₂_same.mpr fun _ _ => rfl
        · obtain ⟨hrest,-,hout⟩ := ih hend hmember hrun
          exact ⟨hcarry _ hrest,hvalid,hout⟩

open Classical in
/-- What is left of the way, counted generously while the set is away from the best chain below the target. -/
noncomputable def passesLeft (st : Store) (source target : ChainIndex) : ℕ :=
  if st.OnBest source ∧ source.height.toNat ≤ target.height.toNat then target.height.toNat - source.height.toNat
  else source.height.toNat + target.height.toNat

theorem passesLeft_lt (htarget : M.store.OnBest target) (hne : source ≠ target)
    (hsource : M.store.Member (m.genesis.id cfg.crypto) source) (hnext : nextBasis M.store source target = .ok next) :
    M.store.Member (m.genesis.id cfg.crypto) next ∧ passesLeft M.store next target < passesLeft M.store source target := by
  rcases nextBasis_cases hset h htarget hne hsource hnext with ⟨hbest,hnextBest,hlt,hle,-⟩ | ⟨habove,hlt,hmember,-⟩
  · refine ⟨h.member_of_onBest hset hnextBest,?_⟩
    rw [passesLeft,passesLeft,if_pos ⟨hnextBest,hle⟩,if_pos ⟨hbest,by omega⟩]
    omega
  · refine ⟨hmember,?_⟩
    have hoff : ¬ (M.store.OnBest source ∧ source.height.toNat ≤ target.height.toNat) := by
      rintro ⟨hbest,hle⟩
      have := habove hbest
      omega
    rw [passesLeft,passesLeft,if_neg hoff]
    split_ifs
    · omega
    · omega

/-- The loop comes to an end, and what it returns does not depend on how many steps one is ready to wait for. -/
theorem updatePendingProofs_ends (htarget : M.store.OnBest target) (hsource : M.store.Member (m.genesis.id cfg.crypto) source) :
    ∃ r, ∀ fuel, passesLeft M.store source target < fuel → updatePendingProofs cfg M.store fuel txns source target = some r := by
  induction hn : passesLeft M.store source target using Nat.strong_induction_on generalizing source txns with
  | _ n ih =>
    by_cases hne : source = target
    · subst hne
      exact ⟨.ok txns,fun fuel _ => updatePendingProofs_self fuel txns source⟩
    cases hstep : pendingStep cfg M.store txns source target with
    | error fault =>
      refine ⟨.error fault,fun fuel hfuel => ?_⟩
      obtain ⟨fuel,rfl⟩ := Nat.exists_eq_succ_of_ne_zero (Nat.ne_zero_of_lt hfuel)
      rw [updatePendingProofs,if_neg hne,hstep]
    | ok r =>
      obtain ⟨next,txns₁⟩ := r
      have hnext : nextBasis M.store source target = .ok next := by
        simp only [pendingStep,bind_eq_ok,pure_eq_ok,Prod.mk.injEq] at hstep
        obtain ⟨next',hnext,_,-,rfl,-⟩ := hstep
        exact hnext
      obtain ⟨hmember,hlt⟩ := passesLeft_lt hset h htarget hne hsource hnext
      obtain ⟨r,hr⟩ := @ih _ (hn ▸ hlt) next txns₁ hmember rfl
      refine ⟨if txns₁.length = 0 then .ok txns₁ else r,fun fuel hfuel => ?_⟩
      obtain ⟨fuel,rfl⟩ := Nat.exists_eq_succ_of_ne_zero (Nat.ne_zero_of_lt hfuel)
      rw [updatePendingProofs,if_neg hne,hstep]
      dsimp only
      rw [if_pos htarget,hr fuel (by omega)]
      split_ifs
      · rfl
      · rfl

end Steps

section Whole

variable {cfg : Config} {m : QdayManifest} {S : Set Bytes} {M : Manager} {source target : ChainIndex}

/-- The loop ends within as many steps as the two heights allow.  From another block than the target, what it
returns is what one update along the whole path would return, if no limit on the length of the path stood in
its way; at the target, the set comes back as it is. -/
theorem updatePendingProofs_single (hreach : Reachable cfg m (Unpruned cfg) M) (hset : Setting cfg.crypto m S M.ingested)
    (hordered : ∀ b ∈ taken M.ingested, Ordered cfg b)
    (hroom : ∀ bl ch, Branch cfg.crypto m M.ingested bl ch → ch.leaves.length ≤ 2^63)
    (htarget : M.store.bestIndex target.height = some target) (hsource : M.store.Member (m.genesis.id cfg.crypto) source)
    (txns : List V2Transaction) :
    (∃ r, ∀ fuel, source.height.toNat + target.height.toNat < fuel →
      updatePendingProofs cfg M.store fuel txns source target = some r) ∧
    ∀ fuel out, updatePendingProofs cfg M.store fuel txns source target = some (.ok out) →
      (source = target → out = txns) ∧
      (source ≠ target → ∃ n, ∀ maxLen ≥ n, Manager.updateProofsWithin cfg M.store maxLen txns source target = .ok out) := by
  obtain ⟨bl,ch,hat⟩ := hreach.proper.at_end hset
  refine ⟨?_,fun fuel out hrun => ⟨?_,fun hne => ?_⟩⟩
  · obtain ⟨r,hr⟩ := @updatePendingProofs_ends _ _ _ _ _ _ source target txns hset hat htarget hsource
    refine ⟨r,fun fuel hfuel => hr fuel (lt_of_le_of_lt ?_ hfuel)⟩
    rw [passesLeft]
    split_ifs
    · omega
    · exact le_rfl
  · rintro rfl
    rw [updatePendingProofs_self] at hrun
    exact (Except.ok.inj (Option.some.inj hrun)).symm
  · obtain ⟨hcarried,hvalid,hheights⟩ :=
      updatePendingProofs_carried hset hat hreach.unpruned hordered hroom htarget hne hsource hrun
    have hsingle := hcarried.single hat.sound.tree hsource (hat.member_of_onBest hset htarget) hne hvalid
    rwa [hheights] at hsingle

theorem updatePendingProofs_single_sample : ∃ S M b M' out, sampleAdded = .ok (M, b, M') ∧
    Setting sampleCrypto sampleManifest S M'.ingested ∧
    updatePendingProofs sampleConfig M'.store 1 [sampleTransfer] ⟨0, sampleManifest.genesis.id sampleCrypto⟩ M'.tipState.index =
      some (.ok out) ∧ out.length = 1 ∧
    ∃ n, ∀ maxLen ≥ n, Manager.updateProofsWithin sampleConfig M'.store maxLen [sampleTransfer]
      ⟨0, sampleManifest.genesis.id sampleCrypto⟩ M'.tipState.index = .ok out := by
  obtain ⟨S,M,b,M',hadded,-,hset,hroom⟩ := sampleAdded_world
  obtain ⟨⟨N,b',N'⟩,hadded',hcheck⟩ := exists_of_holds (x := sampleAdded)
    (p := fun r => decide (r.2.2.store.bestIndex r.2.2.tipState.index.height = some r.2.2.tipState.index ∧
      r.2.2.tipState.index ≠ ⟨0,sampleManifest.genesis.id sampleCrypto⟩) &&
      (updatePendingProofs sampleConfig r.2.2.store 1 [sampleTransfer] ⟨0,sampleManifest.genesis.id sampleCrypto⟩
        r.2.2.tipState.index).any fun x => x.holds fun out => decide (out.length = 1))
    (by decide +kernel)
  rw [hadded] at hadded'
  obtain ⟨rfl,rfl,rfl⟩ : M = N ∧ b = b' ∧ M' = N' := by simpa using hadded'
  rw [Bool.and_eq_true,decide_eq_true_eq,Option.any_eq_true] at hcheck
  obtain ⟨⟨hbest,hne⟩,x,hrun,hholds⟩ := hcheck
  obtain ⟨out,rfl,hlength⟩ := exists_of_holds hholds
  have hall := @updatePendingProofs_single sampleConfig sampleManifest S M' _ _ (sampleAdded_reachable hadded).2.2 hset
    (fun _ _ => rfl) hroom hbest ⟨[],Down.refl _,rfl⟩ [sampleTransfer]
  exact ⟨S,M,b,M',out,hadded,hset,hrun,of_decide_eq_true hlength,((hall.2 1 out hrun).2 hne.symm)⟩

def sampleUnproved : V2Transaction :=
  { sampleTransfer with siacoinInputs := [⟨{ samplePremine with stateElement := ⟨0, []⟩ }, sampleSpend⟩] }

/-- At the target nobody looks at the proofs: a set that no update would accept comes back as it is. -/
theorem updatePendingProofs_unchecked : ∃ M txns, newManager sampleCrypto sampleManifest = .ok M ∧
    M.store.bestIndex M.tipState.index.height = some M.tipState.index ∧
    updatePendingProofs sampleConfig M.store 0 txns M.tipState.index M.tipState.index = some (.ok txns) ∧
    ∀ maxLen out, Manager.updateProofsWithin sampleConfig M.store maxLen txns M.tipState.index M.tipState.index ≠ .ok out := by
  obtain ⟨M,hnew,hcheck⟩ := exists_of_holds (x := newManager sampleCrypto sampleManifest)
    (p := fun M => decide (M.store.bestIndex M.tipState.index.height = some M.tipState.index ∧
      ∀ s ∈ M.store.state M.tipState.index.id, ∃ l ∈ forEachElementLeaf sampleCrypto [sampleUnproved],
        s.elements.containsLeaf sampleCrypto l = false))
    (by decide +kernel)
  obtain ⟨hbest,hinvalid⟩ := of_decide_eq_true hcheck
  refine ⟨M,[sampleUnproved],hnew,hbest,updatePendingProofs_self _ _ _,fun maxLen out hrun => ?_⟩
  rw [Manager.updateProofsWithin] at hrun
  split at hrun
  · cases hrun
  · rename_i s hs
    rw [bind_unit_eq_ok,forM_eq_ok] at hrun
    have hvalid := hrun.1 sampleUnproved (List.mem_singleton.mpr rfl)
    rw [Manager.validateTransactionElements,rejectIf_eq_ok] at hvalid
    exact hvalid (hinvalid s hs)

end Whole

end QdayNode
