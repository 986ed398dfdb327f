import QdayNode.Consensus.ApplyLeaves

/-!
# Updating the proof of any element

`updateProof` patches a proof from the updated leaf that merges with it lowest.  No
updated leaf lies under the siblings below that merge, the sibling at the merge is the
root over the updated leaf, and above it the two paths coincide.
-/
namespace QdayNode
open ByteString Word64 MerkleForest Outcome

variable {group : List ElementLeaf} {i m : ℕ} {e : StateElement} {L' : List Hash256}

variable {c : Crypto} {f g : ℕ → Hash256} {n k : ℕ}

theorem closestLeaf_mem (i : ℕ) (best : ElementLeaf) (ls : List ElementLeaf) :
    closestLeaf i best ls ∈ best :: ls := by
  induction ls generalizing best with
  | nil => exact List.mem_cons_self
  | cons l ls ih =>
    have hmem := ih (if mergeHeight i l.leafIndex < mergeHeight i best.leafIndex then l else best)
    rw [closestLeaf]
    split_ifs at hmem ⊢ with hlt
    · exact List.mem_cons_of_mem _ hmem
    · rcases List.mem_cons.mp hmem with heq | htail
      · rw [heq]
        exact List.mem_cons_self
      · exact List.mem_cons_of_mem _ (List.mem_cons_of_mem _ htail)

theorem mergeHeight_closestLeaf_le (i : ℕ) (best : ElementLeaf) (ls : List ElementLeaf) :
    ∀ m ∈ best :: ls, mergeHeight i (closestLeaf i best ls).leafIndex ≤ mergeHeight i m.leafIndex := by
  induction ls generalizing best with
  | nil =>
    intro m hm
    rw [List.mem_singleton.mp hm]
    exact le_refl _
  | cons l ls ih =>
    intro m hm
    rw [closestLeaf]
    have hstep := ih (if mergeHeight i l.leafIndex < mergeHeight i best.leafIndex then l else best)
    have hfirst := hstep _ List.mem_cons_self
    have hrest : ∀ o ∈ ls, _ ≤ mergeHeight i o.leafIndex := fun o ho => hstep o (List.mem_cons_of_mem _ ho)
    rcases List.mem_cons.mp hm with rfl | hm
    · split_ifs at hfirst ⊢ with hlt <;> omega
    · rcases List.mem_cons.mp hm with rfl | hm
      · split_ifs at hfirst ⊢ with hlt <;> omega
      · exact hrest m hm

theorem copySlice_of_le {α : Type*} {dst src : List α} (hle : dst.length ≤ src.length) :
    copySlice dst src = src.take dst.length := by
  rw [copySlice,List.drop_eq_nil_of_le hle,List.append_nil]

/-- What the patching of proofs relies on, for one tree: its updated leaves carry the paths of `g`,
and `f` and `g` agree on the rest of the tree. -/
structure PatchSource (c : Crypto) (f g : ℕ → Hash256) (n k : ℕ) (group : List ElementLeaf) : Prop where
  inTree : ∀ l ∈ group, InTree n k l.leafIndex
  follows : ∀ l ∈ group, FollowsBelow c g k l
  hash : ∀ l ∈ group, g l.leafIndex = l.hash c
  others : ∀ x, InTree n k x → (∀ l ∈ group, l.leafIndex ≠ x) → f x = g x

theorem PatchSource.siblings_eq (src : PatchSource c f g n k group)
    (hin : InTree n k i) (hm : m ≤ k) (hfar : ∀ l ∈ group, m < mergeHeight i l.leafIndex) :
    siblings c.sumPair f i 0 m = siblings c.sumPair g i 0 m := by
  refine siblings_congr rfl fun r _ hr x hx => src.others x ?_ ?_
  · refine hin.of_div_eq (m := r+1) ?_ (by omega)
    rw [div_two_pow_succ,div_two_pow_succ,hx,sib_div_two]
  · rintro l hl rfl
    have hmerge : mergeHeight i l.leafIndex ≤ r + 1 := by
      rw [mergeHeight_le_iff,div_two_pow_succ,div_two_pow_succ,hx,sib_div_two]
    have := hfar l hl
    omega

/-- The patch from a leaf that merges with position `i` on row `m+1`. -/
theorem PatchSource.patch_eq (src : PatchSource c f g n k group)
    {best : ElementLeaf} (hbest : best ∈ group) (hin : InTree n k i)
    (hmerge : mergeHeight i best.leafIndex = m + 1)
    (hclosest : ∀ l ∈ group, m + 1 ≤ mergeHeight i l.leafIndex) :
    ((siblings c.sumPair f i 0 k).take (m+1) ++
        copySlice ((siblings c.sumPair f i 0 k).drop (m+1)) (best.merkleProof.drop (m+1))).set m
      (proofRoot c (best.hash c) best.stateElement.leafIndex (best.merkleProof.take m)) =
      siblings c.sumPair g i 0 k := by
  have hcol := hin.div_eq (src.inTree best hbest)
  have hmk : m + 1 ≤ k := by rw [← hmerge,mergeHeight_le_iff,hcol]
  have hfollows := src.follows best hbest
  have hlen := hfollows.le_length
  have hshared : i / 2^(m+1) = best.leafIndex / 2^(m+1) := (mergeHeight_le_iff _ _ _).mp hmerge.le
  -- above the merge
  have htail : copySlice ((siblings c.sumPair f i 0 k).drop (m+1)) (best.merkleProof.drop (m+1)) =
      siblings c.sumPair g i (m+1) (k-(m+1)) := by
    rw [copySlice_of_le,List.length_drop,length_siblings,← List.drop_take,hfollows,drop_siblings _ _ _ _ _ hmk,
      Nat.zero_add,siblings_congr hshared.symm fun _ _ _ _ _ => rfl]
    rw [List.length_drop,List.length_drop,length_siblings]
    omega
  -- at the merge
  have hroot : proofRoot c (best.hash c) best.stateElement.leafIndex (best.merkleProof.take m) =
      nodeAt c.sumPair g m (sib (i / 2^m)) := by
    have htake : best.merkleProof.take m = siblings c.sumPair g best.leafIndex 0 m :=
      hfollows.mono (by omega)
    have hclimb := @climb_siblings _ c.sumPair g best.leafIndex 0 m
    have hsib := mergeHeight_sib (mergeHeight_comm i _ ▸ hmerge)
    rw [Nat.zero_add,pow_zero,Nat.div_one,nodeAt,src.hash best hbest,hsib] at hclimb
    rw [htake]
    exact hclimb
  have hbelow := src.siblings_eq hin (by omega : m ≤ k) fun l hl => hclosest l hl
  rw [htail,hroot,take_siblings _ _ _ _ _ hmk,siblings_snoc,Nat.zero_add,List.append_assoc,
    List.set_append_right _ _ (by simp),length_siblings,Nat.sub_self,List.singleton_append,List.set_cons_zero,
    hbelow]
  obtain ⟨d,rfl⟩ := Nat.exists_eq_add_of_le hmk
  rw [siblings_add,siblings_snoc,Nat.zero_add,Nat.zero_add,Nat.add_sub_cancel_left,List.append_assoc,
    List.singleton_append]

/-- `updateProof` turns the path of `f` into the path of `g`. -/
theorem updateProof_spec {groups : List (List ElementLeaf)} (hk : k < 64)
    (src : PatchSource c f g n k (groups.getD k [])) (hin : InTree n k e.leafIndex.toNat)
    (hproof : e.merkleProof = siblings c.sumPair f e.leafIndex.toNat 0 k) :
    updateProof c e groups = .ok { e with merkleProof := siblings c.sumPair g e.leafIndex.toNat 0 k } := by
  have hlen : e.merkleProof.length = k := by rw [hproof,length_siblings]
  have hfits : ¬ 64 ≤ k := by omega
  unfold updateProof
  simp only [hlen,crashIf,hfits,if_false,ok_bind]
  cases hgroup : groups.getD k [] with
  | nil =>
    rw [hgroup] at src
    have hsame := src.siblings_eq hin (le_refl k) (by simp)
    rw [← hsame,← hproof]
    rfl
  | cons l ls =>
    rw [hgroup] at src
    have hmem := closestLeaf_mem e.leafIndex.toNat l ls
    have hclosest := mergeHeight_closestLeaf_le e.leafIndex.toNat l ls
    dsimp only
    generalize closestLeaf e.leafIndex.toNat l ls = best at hmem hclosest ⊢
    have hbestLen := (src.follows best hmem).le_length
    by_cases hsame : best.stateElement.leafIndex = e.leafIndex
    · have hfollows := src.follows best hmem
      have hindex : best.leafIndex = e.leafIndex.toNat := congrArg UInt64.toNat hsame
      rw [FollowsBelow,hindex] at hfollows
      simp only [hsame,if_true,copySlice_of_le (hlen.trans_le hbestLen),hlen,hfollows]
      rfl
    · have hne : mergeHeight e.leafIndex.toNat best.leafIndex ≠ 0 := fun h0 =>
        hsame (UInt64.toNat_inj.mp ((mergeHeight_eq_zero_iff _ _).mp h0).symm)
      obtain ⟨m,hm⟩ := Nat.exists_eq_succ_of_ne_zero hne
      have hmk : m + 1 ≤ k := by
        rw [← Nat.succ_eq_add_one,← hm,mergeHeight_le_iff,hin.div_eq (src.inTree best hmem)]
      have hbounds : ¬ (k < m + 1 ∨ best.merkleProof.length < m + 1) := by omega
      have hpatch := src.patch_eq hmem hin hm fun o ho => (hclosest o ho).trans' hm.ge
      rw [← hproof] at hpatch
      simp only [hsame,if_false,hm,Nat.succ_eq_add_one,hbounds,ok_bind,
        Nat.add_sub_cancel,hpatch]
      rfl

variable {updated added : List ElementLeaf} {L : List Hash256} {acc : ElementAccumulator}

/-- Refreshed leaves, whatever was appended to their proofs, patch every hash function that agrees
with `g` away from them. -/
theorem ValidUpdates.patchSource {f' : ℕ → Hash256} (v : ValidUpdates c f g n updated)
    (hkept : ∀ x < n, (∀ l ∈ updated, l.leafIndex ≠ x) → f' x = g x) (ext : ElementLeaf → List Hash256) (k : ℕ) :
    PatchSource c f' g n k ((groupAt updated k).map fun l => (refreshed c g l).extend (ext l)) where
  inTree := by
    refine List.forall_mem_map.mpr fun l hl => ?_
    obtain ⟨hmem,rfl⟩ := mem_groupAt.mp hl
    exact v.inTree hmem
  follows := by
    refine List.forall_mem_map.mpr fun l hl => ?_
    obtain ⟨hmem,rfl⟩ := mem_groupAt.mp hl
    exact List.take_left' (length_siblings _ _ _ _)
  hash := by
    refine List.forall_mem_map.mpr fun l hl => ?_
    exact v.replaced l (mem_groupAt.mp hl).1
  others x hx hno := by
    refine hkept x hx.lt fun l hl heq => ?_
    have hlen : l.merkleProof.length = k := (v.inTree hl).unique (heq ▸ hx)
    exact hno _ (List.mem_map_of_mem (mem_groupAt.mpr ⟨hl,hlen⟩)) heq

theorem getD_refreshedGroups (updated : List ElementLeaf) (hk : k < 64) :
    (refreshedGroups c g updated).getD k [] = (groupAt updated k).map (refreshed c g) := by
  rw [refreshedGroups,List.getD_eq_getElem?_getD,List.getElem?_map,List.getElem?_range hk]
  rfl

section Applied

variable (hrep : Represents c acc L) (hdistinct : (updated.map ElementLeaf.leafIndex).Nodup)
  (hvalid : ∀ l ∈ updated, ValidProof c L l.stateElement)
include hrep hdistinct hvalid

/-- The apply update replaces the path of an older leaf and appends the growth of its tree. -/
theorem updateElementProof_of_ok {out : AppliedLeaves} (happly : acc.applyBlock c updated added = .ok out)
    (hin : InTree L.length k e.leafIndex.toNat)
    (hproof : e.merkleProof = siblings c.sumPair (leafFn L) e.leafIndex.toNat 0 k)
    (hassigned : e.leafIndex ≠ unassignedLeafIndex) :
    out.eau.updateElementProof c e = .ok { e with
      merkleProof := siblings c.sumPair (leafFn (leavesAfter c L updated added)) e.leafIndex.toNat 0 k ++
        out.eau.treeGrowth k } := by
  have v := validUpdates_of_validProof added hdistinct hvalid
  have hk := hin.height_lt hrep.length_lt
  have hnum : L.length ≤ out.eau.numLeaves.toNat := by
    have hrep' := (represents_of_ok hrep hdistinct hvalid happly).numLeaves
    obtain rfl := applyBlock_eq_of_ok hrep hdistinct hvalid happly
    have := hrep.length_lt
    rw [List.length_take,length_leavesAfter] at hrep'
    exact le_of_le_of_eq (by omega) hrep'.symm
  obtain rfl := applyBlock_eq_of_ok hrep hdistinct hvalid happly
  set out := appliedLeaves c acc (refreshedGroups c (leafFn (leavesAfter c L updated added)) updated) added
  have hold : ¬ e.leafIndex ≥ out.eau.oldNumLeaves := by
    have hlt := hin.lt
    rw [ge_iff_le,UInt64.le_iff_toNat_le,not_le]
    exact hrep.numLeaves ▸ hlt
  have hgroup : out.eau.updated.getD k [] = (groupAt updated k).map fun l =>
      (refreshed c (leafFn (leavesAfter c L updated added)) l).extend (out.eau.treeGrowth l.merkleProof.length) := by
    change (List.map _ (refreshedGroups c _ updated)).getD k [] = _
    rw [List.getD_eq_getElem?_getD,List.getElem?_map,refreshedGroups,List.getElem?_map,List.getElem?_range hk]
    simp only [Option.map_some,Option.getD_some,List.map_map,Function.comp_def,length_refreshed]
    rfl
  have hsrc := v.patchSource (fun x hx hno => (v.kept x hx hno).symm)
    (fun l => out.eau.treeGrowth l.merkleProof.length) k
  have hpatched := updateProof_spec hk (hgroup ▸ hsrc) hin hproof
  -- the position lies in an older tree, so it merges with the new end above that tree
  have hmerge : mergeHeight out.eau.numLeaves.toNat e.leafIndex.toNat ≠ k := fun heq => by
    have hcol := (mergeHeight_le_iff _ _ _).mp heq.le
    have := Nat.div_le_div_right (c := 2^k) hnum
    have := hin.2
    omega
  have hfits : ¬ 64 ≤ k := by omega
  simp only [ElementApplyUpdate.updateElementProof,crashIf,hassigned,if_false,ok_bind,hold,
    hpatched,length_siblings,hmerge,ne_eq,not_false_eq_true,if_true,hfits]
  rfl

end Applied

section Reverted

theorem validUpdates_self (hdistinct : (updated.map ElementLeaf.leafIndex).Nodup)
    (hvalid : ∀ l ∈ updated, ValidProof c L l.stateElement)
    (hstored : ∀ l ∈ updated, leafFn L l.leafIndex = l.hash c) :
    ValidUpdates c (leafFn L) (leafFn L) L.length updated :=
  ⟨hdistinct,hvalid,hstored,fun _ _ _ => rfl⟩

/-- The revert update cuts the proof back to the tree before the block and patches it from the old
leaves; whatever had been appended to the path is dropped. -/
theorem revertElementProof_of_ok (hrep : Represents c acc L)
    (v : ValidUpdates c (leafFn L) (leafFn L) L.length updated) {rev : RevertedLeaves}
    (hrevert : acc.revertBlock c updated added = .ok rev)
    (hkept : ∀ x < L.length, (∀ l ∈ updated, l.leafIndex ≠ x) → leafFn L' x = leafFn L x)
    (hin : InTree L.length k e.leafIndex.toNat) (ext : List Hash256)
    (hproof : e.merkleProof = siblings c.sumPair (leafFn L') e.leafIndex.toNat 0 k ++ ext)
    (hassigned : e.leafIndex ≠ unassignedLeafIndex) :
    rev.eru.updateElementProof c e = .ok { e with
      merkleProof := siblings c.sumPair (leafFn L) e.leafIndex.toNat 0 k } := by
  simp only [ElementAccumulator.revertBlock,bind_eq_ok,pure_eq_ok] at hrevert
  obtain ⟨groups,hgroups,rfl⟩ := hrevert
  obtain rfl := v.updateLeaves_of_ok hrep.length_lt hgroups
  have hk := hin.height_lt hrep.length_lt
  have hsrc := v.patchSource hkept (fun _ => []) k
  simp only [ElementLeaf.extend_nil] at hsrc
  rw [← getD_refreshedGroups updated hk] at hsrc
  have hpresent : ¬ e.leafIndex ≥ acc.numLeaves := by
    rw [ge_iff_le,UInt64.le_iff_toNat_le,not_le]
    exact hrep.numLeaves ▸ hin.lt
  have hcut : ∀ e' : StateElement, e'.leafIndex = e.leafIndex →
      e'.merkleProof = siblings c.sumPair (leafFn L') e.leafIndex.toNat 0 k →
      updateProof c e' (refreshedGroups c (leafFn L) updated) = .ok { e with
        merkleProof := siblings c.sumPair (leafFn L) e.leafIndex.toNat 0 k } := by
    rintro ⟨_,p⟩ rfl rfl
    exact updateProof_spec hk hsrc hin rfl
  simp only [ElementRevertUpdate.updateElementProof,crashIf,hassigned,hpresent,if_false,ok_bind,
    hrep.numLeaves,hin.mergeHeight,Nat.add_sub_cancel]
  split_ifs with hlong
  · refine hcut _ rfl ?_
    change e.merkleProof.take k = _
    rw [hproof,List.take_left' (length_siblings _ _ _ _)]
  · refine hcut _ rfl ?_
    rw [hproof,List.length_append,length_siblings] at hlong
    rw [hproof,List.length_eq_zero_iff.mp (by omega : ext.length = 0),List.append_nil]

theorem ValidProof.split (hproof : ValidProof c L' e)
    (hin : InTree L.length k e.leafIndex.toNat) (hle : L.length ≤ L'.length) :
    ∃ ext, e.merkleProof = siblings c.sumPair (leafFn L') e.leafIndex.toNat 0 k ++ ext := by
  obtain ⟨k',hin',hpath⟩ := hproof
  obtain ⟨d,rfl⟩ := Nat.exists_eq_add_of_le (hin.height_le hin' hle)
  exact ⟨_,by rw [hpath,siblings_add]⟩

end Reverted

/-- The apply update turns every valid proof into one that is valid after the block. -/
theorem updateElementProof_valid_after (c : Crypto) (acc : ElementAccumulator) (L : List Hash256)
    (updated added : List ElementLeaf) (hrep : Represents c acc L)
    (hdistinct : (updated.map ElementLeaf.leafIndex).Nodup)
    (hvalid : ∀ l ∈ updated, ValidProof c L l.stateElement) (hcap : L.length + added.length < 2^64) :
    (L.length ≤ 2^63 → ∃ out, acc.applyBlock c updated added = .ok out) ∧
      ∀ out, acc.applyBlock c updated added = .ok out →
        Represents c out.acc (leavesAfter c L updated added) ∧
        ∀ e : StateElement, e.leafIndex ≠ unassignedLeafIndex → ValidProof c L e →
          ∃ e', out.eau.updateElementProof c e = .ok e' ∧ e'.leafIndex = e.leafIndex ∧
            ValidProof c (leavesAfter c L updated added) e' ∧
            ∀ l : ElementLeaf, l.stateElement = e' →
              l.hash c = leafFn (leavesAfter c L updated added) e.leafIndex.toNat →
              out.acc.containsLeaf c l = true := by
  refine ⟨applyBlock_returns acc added hdistinct hvalid,fun out happly => ?_⟩
  have h := appliedTo_of_ok hrep hdistinct hvalid hcap happly
  refine ⟨h.represents,fun e hassigned hproof => ?_⟩
  obtain ⟨k,hin,hpath⟩ := hproof
  refine ⟨_,updateElementProof_of_ok hrep hdistinct hvalid happly hin hpath hassigned,rfl,?_⟩
  have hafter : ValidProof c (leavesAfter c L updated added) { e with
      merkleProof := siblings c.sumPair (leafFn (leavesAfter c L updated added)) e.leafIndex.toNat 0 k ++
        out.eau.treeGrowth k } := by
    refine validPath_iff.mpr ⟨?_,?_⟩
    · rw [length_leavesAfter]
      exact Nat.lt_add_right _ hin.lt
    · rw [length_leavesAfter]
      exact h.growth k _ hin
  refine ⟨hafter,?_⟩
  rintro l hl hhash
  refine h.represents.containsLeaf (hl ▸ hafter) ?_
  rw [ElementLeaf.leafIndex,hl]
  exact hhash.symm

theorem updateElementProof_valid_after_single :
    ∃ out e', ElementAccumulator.applyBlock sampleCrypto ⟨fun _ => default, 1⟩ []
        [⟨1, ⟨unassignedLeafIndex, []⟩, default, false⟩] = .ok out ∧
      out.eau.updateElementProof sampleCrypto ⟨0, []⟩ = .ok e' ∧
      ValidProof sampleCrypto (leavesAfter sampleCrypto [default] []
        [⟨1, ⟨unassignedLeafIndex, []⟩, default, false⟩]) e' := by
  obtain ⟨hreturns,hall⟩ := updateElementProof_valid_after sampleCrypto ⟨fun _ => default,1⟩ [default] []
    [⟨1,⟨unassignedLeafIndex,[]⟩,default,false⟩] (represents_singleton _ _) (by simp) (by simp) (by decide)
  obtain ⟨out,happly⟩ := hreturns (by decide)
  obtain ⟨e',hupdate,-,hvalid,-⟩ := (hall out happly).2 ⟨0,[]⟩ (by decide) (validProof_singleton _ _)
  exact ⟨out,e',happly,hupdate,hvalid⟩

/-- With more than `unassignedLeafIndex` leaves one of them sits at the index that marks ephemeral
elements, and its proof cannot be updated. -/
theorem updateElementProof_panics_at_unassigned :
    let L : List Hash256 := List.replicate 10101010101010101011 default
    let acc : ElementAccumulator :=
      ⟨fun k => nodeAt sampleCrypto.sumPair (leafFn L) k (L.length / 2^k - 1),10101010101010101011⟩
    Represents sampleCrypto acc L ∧ ValidProof sampleCrypto L ⟨unassignedLeafIndex,[]⟩ ∧
      ∃ out, acc.applyBlock sampleCrypto [] [] = .ok out ∧
        out.eau.updateElementProof sampleCrypto ⟨unassignedLeafIndex,[]⟩ =
          crash "cannot update an ephemeral element" := by
  intro L acc
  have hlen : L.length = 10101010101010101011 := List.length_replicate
  refine ⟨⟨?_,fun k _ => rfl⟩,⟨0,⟨?_,?_⟩,rfl⟩,_,rfl,?_⟩
  · rw [hlen]
    rfl
  · rw [hlen]
    decide
  · rw [hlen]
    decide
  · simp [ElementApplyUpdate.updateElementProof,crashIf,crash,bind,Except.bind]

end QdayNode
