import QdayNode.Consensus.UpdateLeaves

/-!
# Applying a batch of updates and additions

An accumulator represents a list of leaf hashes.  `applyBlock` refines the obvious
operation on that list, replace and append, and leaves the sibling path of the new
list in every leaf it was given.
-/
namespace QdayNode
open ByteString Word64 MerkleForest Outcome

variable {x : ℕ} {l : ElementLeaf} {out : AppliedLeaves}

def leafFn (L : List Hash256) (i : ℕ) : Hash256 := L.getD i default

/-- The accumulator stands for the list of leaf hashes `L`: it counts the leaves and, for every
set bit `k` of the count, holds the root of the perfect tree over the run of `2^k` leaves that
ends where the lower bits begin. -/
structure Represents (c : Crypto) (acc : ElementAccumulator) (L : List Hash256) : Prop where
  numLeaves : acc.numLeaves.toNat = L.length
  roots : HoldsRoots c.sumPair (leafFn L) L.length acc.trees

/-- The proof of the element is the sibling path of its position in `L`. -/
def ValidProof (c : Crypto) (L : List Hash256) (e : StateElement) : Prop :=
  ValidPath c.sumPair (leafFn L) L.length e.leafIndex.toNat e.merkleProof

def replaceLeaves (c : Crypto) (L : List Hash256) (updated : List ElementLeaf) : List Hash256 :=
  updated.foldl (fun L l => L.set l.leafIndex (l.hash c)) L

/-- The hashes of leaves added from position `n` on. -/
def appendedLeaves (c : Crypto) (n : ℕ) (added : List ElementLeaf) : List Hash256 :=
  added.mapIdx fun j l => (l.withIndex (UInt64.ofNat (n+j))).hash c

def leavesAfter (c : Crypto) (L : List Hash256) (updated added : List ElementLeaf) : List Hash256 :=
  replaceLeaves c L updated ++ appendedLeaves c L.length added

variable {c : Crypto} {acc : ElementAccumulator} {L : List Hash256} {updated added : List ElementLeaf}

@[simp] theorem length_replaceLeaves : (replaceLeaves c L updated).length = L.length := by
  unfold replaceLeaves
  induction updated generalizing L with
  | nil => rfl
  | cons l ls ih => rw [List.foldl_cons,ih,List.length_set]

@[simp] theorem length_appendedLeaves (n : ℕ) : (appendedLeaves c n added).length = added.length := by
  simp [appendedLeaves]

@[simp] theorem length_leavesAfter :
    (leavesAfter c L updated added).length = L.length + added.length := by
  simp [leavesAfter]

theorem getElem?_replaceLeaves_of_ne (hno : ∀ l ∈ updated, l.leafIndex ≠ x) :
    (replaceLeaves c L updated)[x]? = L[x]? := by
  unfold replaceLeaves
  induction updated generalizing L with
  | nil => rfl
  | cons l ls ih =>
    rw [List.forall_mem_cons] at hno
    rw [List.foldl_cons,ih hno.2,List.getElem?_set_ne hno.1]

theorem getElem?_replaceLeaves_of_mem (hdistinct : (updated.map ElementLeaf.leafIndex).Nodup)
    (hl : l ∈ updated) (hlt : l.leafIndex < L.length) :
    (replaceLeaves c L updated)[l.leafIndex]? = some (l.hash c) := by
  induction updated generalizing L with
  | nil => cases hl
  | cons m ls ih =>
    rw [List.map_cons,List.nodup_cons] at hdistinct
    rcases List.mem_cons.mp hl with rfl | hmem
    · have hno : ∀ m ∈ ls, m.leafIndex ≠ l.leafIndex := fun m hm heq =>
        hdistinct.1 (heq ▸ List.mem_map_of_mem hm)
      exact (getElem?_replaceLeaves_of_ne hno).trans (List.getElem?_set_self hlt)
    · exact ih (L := L.set m.leafIndex (m.hash c)) hdistinct.2 hmem (by rwa [List.length_set])

theorem leafFn_leavesAfter_of_lt (hx : x < L.length) :
    leafFn (leavesAfter c L updated added) x = ((replaceLeaves c L updated)[x]?).getD default := by
  rw [leafFn,List.getD_eq_getElem?_getD,leavesAfter,List.getElem?_append_left (by simpa using hx)]

theorem leafFn_leavesAfter_added {j : ℕ} (hl : added[j]? = some l) :
    leafFn (leavesAfter c L updated added) (L.length + j) =
      (l.withIndex (UInt64.ofNat (L.length + j))).hash c := by
  rw [leafFn,List.getD_eq_getElem?_getD,leavesAfter,List.getElem?_append_right (by simp)]
  simp [appendedLeaves,hl]

theorem validUpdates_of_validProof (added : List ElementLeaf) (hdistinct : (updated.map ElementLeaf.leafIndex).Nodup)
    (hvalid : ∀ l ∈ updated, ValidProof c L l.stateElement) :
    ValidUpdates c (leafFn L) (leafFn (leavesAfter c L updated added)) L.length updated where
  distinct := hdistinct
  path := hvalid
  replaced l hl := by
    have hlt : l.leafIndex < L.length := (validPath_iff.mp (hvalid l hl)).1
    rw [leafFn_leavesAfter_of_lt hlt,getElem?_replaceLeaves_of_mem hdistinct hl hlt,Option.getD_some]
  kept x hx hno := by
    rw [leafFn_leavesAfter_of_lt hx,getElem?_replaceLeaves_of_ne hno,leafFn,List.getD_eq_getElem?_getD]

def pathAfter (c : Crypto) (L : List Hash256) (updated added : List ElementLeaf) (x : ℕ) : List Hash256 :=
  path c.sumPair (leafFn (leavesAfter c L updated added)) (L.length + added.length) x

/-- What `applyBlock` returns for a represented list and valid updates. -/
structure AppliedTo (c : Crypto) (L : List Hash256) (updated added : List ElementLeaf) (out : AppliedLeaves) :
    Prop where
  represents : Represents c out.acc (leavesAfter c L updated added)
  updatedLeaves : out.eau.updated = (List.range 64).map fun k =>
    (groupAt updated k).map fun l => l.withProof (pathAfter c L updated added l.leafIndex)
  addedLeaves : out.added = added.mapIdx fun j l =>
    (l.withIndex (UInt64.ofNat (L.length + j))).extend (pathAfter c L updated added (L.length + j))
  growth : ∀ k x, InTree L.length k x →
    siblings c.sumPair (leafFn (leavesAfter c L updated added)) x 0 k ++ out.eau.treeGrowth k =
      pathAfter c L updated added x
  numLeaves : out.eau.numLeaves.toNat = L.length + added.length

theorem Represents.length_lt (hrep : Represents c acc L) : L.length < 2^64 :=
  hrep.numLeaves ▸ acc.numLeaves.toNat_lt

def appliedLeaves (c : Crypto) (acc : ElementAccumulator) (groups : List (List ElementLeaf))
    (added : List ElementLeaf) : AppliedLeaves :=
  let st := addLeaves c { acc with trees := replaceRoots c acc.trees groups } added
  { acc := st.acc
    eau := {
      updated := groups.map fun group => group.map fun e => e.extend (st.treeGrowth e.merkleProof.length)
      treeGrowth := st.treeGrowth
      oldNumLeaves := acc.numLeaves
      numLeaves := st.acc.numLeaves }
    added := st.leaves }

section Applied

variable (hrep : Represents c acc L) (hdistinct : (updated.map ElementLeaf.leafIndex).Nodup)
  (hvalid : ∀ l ∈ updated, ValidProof c L l.stateElement)
include hrep hdistinct hvalid

theorem applyBlock_eq_of_ok (happly : acc.applyBlock c updated added = .ok out) :
    out = appliedLeaves c acc (refreshedGroups c (leafFn (leavesAfter c L updated added)) updated) added := by
  have v := validUpdates_of_validProof added hdistinct hvalid
  simp only [ElementAccumulator.applyBlock,bind_eq_ok,pure_eq_ok] at happly
  obtain ⟨groups,hgroups,rfl⟩ := happly
  rw [v.updateLeaves_of_ok hrep.length_lt hgroups]
  rfl

theorem holdsRoots_replaceRoots (added : List ElementLeaf) :
    HoldsRoots c.sumPair (leafFn (leavesAfter c L updated added)) L.length
      (replaceRoots c acc.trees (refreshedGroups c (leafFn (leavesAfter c L updated added)) updated)) :=
  (validUpdates_of_validProof added hdistinct hvalid).holdsRoots hrep.length_lt hrep.roots

/-- While the counter of leaves lasts, `applyBlock` replaces and appends. -/
theorem appliedTo_of_ok (hcap : L.length + added.length < 2^64)
    (happly : acc.applyBlock c updated added = .ok out) : AppliedTo c L updated added out := by
  have v := validUpdates_of_validProof added hdistinct hvalid
  obtain rfl := applyBlock_eq_of_ok hrep hdistinct hvalid happly
  have hroots := holdsRoots_replaceRoots hrep hdistinct hvalid added
  set F := leafFn (leavesAfter c L updated added) with hF
  set st := addLeaves c ⟨replaceRoots c acc.trees (refreshedGroups c F updated),acc.numLeaves⟩ added with hst
  have hadd : AddInvariant c F added L.length added.length st :=
    addLeaves_spec hrep.numLeaves hroots hcap fun j l hl => leafFn_leavesAfter_added hl
  have hgrowth : ∀ k x, InTree L.length k x →
      siblings c.sumPair F x 0 k ++ st.treeGrowth k = pathAfter c L updated added x := fun k x hx => by
    have hbit := (testBit_iff_div _ k).mpr hx.1
    exact (validPath_iff.mp ((hadd.growth k hbit).extend hx (inTree_clearBits hbit))).2
  obtain ⟨paths,hleaves,hpaths⟩ := hadd.leaves
  refine ⟨⟨?_,?_⟩,?_,?_,hgrowth,hadd.numLeaves⟩
  · rw [length_leavesAfter]
    exact hadd.numLeaves
  · rw [length_leavesAfter]
    exact hadd.roots
  · simp only [appliedLeaves,refreshedGroups,List.map_map,Function.comp_def]
    refine List.map_congr_left fun k _ => List.map_congr_left fun l hl => ?_
    rw [length_refreshed,← hgrowth _ _ (v.inTree (mem_groupAt.mp hl).1)]
    rfl
  · change st.leaves = _
    rw [hleaves]
    refine List.ext_getElem? fun j => ?_
    simp only [placed,List.getElem?_mapIdx]
    cases hj : added[j]? with
    | none => rfl
    | some l =>
      obtain ⟨hlt,-⟩ := List.getElem?_eq_some_iff.mp hj
      obtain ⟨-,heq⟩ := validPath_iff.mp (pathFrom_zero_iff.mp (hpaths j hlt))
      simp only [Option.map_some,hlt,if_true,heq,pathAfter,hF]

theorem represents_of_ok (happly : acc.applyBlock c updated added = .ok out) :
    Represents c out.acc ((leavesAfter c L updated added).take (2^64 - 1)) := by
  obtain rfl := applyBlock_eq_of_ok hrep hdistinct hvalid happly
  have hroots := holdsRoots_replaceRoots hrep hdistinct hvalid added
  set trees := replaceRoots c acc.trees (refreshedGroups c (leafFn (leavesAfter c L updated added)) updated)
  have hrepl : (⟨trees,acc.numLeaves⟩ : ElementAccumulator).numLeaves.toNat = L.length := hrep.numLeaves
  obtain ⟨hnum,hroots⟩ := addLeaves_saturates hrepl hroots fun j l hl => leafFn_leavesAfter_added hl
  rw [Nat.min_comm] at hnum hroots
  refine ⟨?_,?_⟩
  · rw [List.length_take,length_leavesAfter]
    exact hnum
  · rw [List.length_take,length_leavesAfter]
    refine hroots.congr fun i hi => ?_
    rw [leafFn,leafFn,List.getD_eq_getElem?_getD,List.getD_eq_getElem?_getD,
      List.getElem?_take_of_lt (by omega)]

end Applied

theorem applyBlock_returns (acc : ElementAccumulator) (added : List ElementLeaf)
    (hdistinct : (updated.map ElementLeaf.leafIndex).Nodup)
    (hvalid : ∀ l ∈ updated, ValidProof c L l.stateElement) (hcap : L.length ≤ 2^63) :
    ∃ out, acc.applyBlock c updated added = .ok out := by
  have v := validUpdates_of_validProof added hdistinct hvalid
  exact ⟨_,by simp only [ElementAccumulator.applyBlock,v.updateLeaves hcap,ok_bind]; rfl⟩

theorem flatMap_filter_perm {α : Type*} (key : α → ℕ) (l : List α) (m : ℕ) :
    ((List.range m).flatMap fun k => l.filter (key · = k)).Perm (l.filter (key · < m)) := by
  induction m with
  | zero => simp
  | succ m ih =>
    rw [List.range_succ,List.flatMap_append,List.flatMap_singleton]
    have hsplit := List.filter_append_perm (key · < m) (l.filter (key · < m+1))
    simp only [List.filter_filter] at hsplit
    refine (ih.append_right _).trans (Eq.subst (motive := fun x => List.Perm x _) ?_ hsplit)
    congr 1
    · refine List.filter_congr fun a _ => ?_
      rw [Bool.eq_iff_iff,Bool.and_eq_true]
      simp only [decide_eq_true_iff]
      omega
    · refine List.filter_congr fun a _ => ?_
      rw [Bool.eq_iff_iff,Bool.and_eq_true,Bool.not_eq_true']
      simp only [decide_eq_true_iff,decide_eq_false_iff_not]
      omega

theorem flatten_groupAt_perm (hlen : ∀ l ∈ updated, l.merkleProof.length < 64) :
    ((List.range 64).flatMap (groupAt updated)).Perm updated := by
  have hgroup := flatMap_filter_perm (fun l : ElementLeaf => l.merkleProof.length)
    (updated.insertionSort leafOrder) 64
  have hall : (updated.insertionSort leafOrder).filter (fun l => l.merkleProof.length < 64) =
      updated.insertionSort leafOrder := List.filter_eq_self.mpr (by simpa using hlen)
  rw [hall] at hgroup
  exact hgroup.trans (List.perm_insertionSort leafOrder updated)

theorem Represents.containsLeaf (hrep : Represents c acc L)
    (hproof : ValidProof c L l.stateElement) (hhash : leafFn L l.leafIndex = l.hash c) :
    acc.containsLeaf c l = true := by
  have hclimb := hproof.climb
  obtain ⟨k,hin,hpath⟩ := hproof
  have hlen : l.merkleProof.length = k := by
    change l.stateElement.merkleProof.length = k
    rw [hpath,length_siblings]
  have htree : acc.hasTreeAtHeight l.merkleProof.length = true := by
    rw [hasTreeAtHeight_iff,hrep.numLeaves,hlen]
    exact hin.1
  have hroot := hrep.roots _ (hlen ▸ hin.1)
  simp only [ElementAccumulator.containsLeaf,htree,Bool.true_and,decide_eq_true_iff]
  rw [hroot,ElementLeaf.proofRoot,proofRoot,← hhash]
  exact hclimb.symm

/-- `applyBlock` refines replacing and appending on the list of leaves, and every leaf of the batch
ends with the sibling path of its position. -/
theorem applyBlock_refines_leafList (c : Crypto) (acc : ElementAccumulator) (L : List Hash256)
    (updated added : List ElementLeaf) (hrep : Represents c acc L)
    (hdistinct : (updated.map ElementLeaf.leafIndex).Nodup)
    (hvalid : ∀ l ∈ updated, ValidProof c L l.stateElement)
    (hempty : ∀ l ∈ added, l.merkleProof = []) (hcap : L.length + added.length < 2^63) :
    ∃ out, acc.applyBlock c updated added = .ok out ∧
      Represents c out.acc (leavesAfter c L updated added) ∧
      (out.eau.updated.flatten.map (·.withProof [])).Perm (updated.map (·.withProof [])) ∧
      out.added.map (·.withProof []) =
        added.mapIdx (fun j l => (l.withIndex (UInt64.ofNat (L.length + j))).withProof []) ∧
      (∀ l ∈ out.eau.updated.flatten, ValidProof c (leavesAfter c L updated added) l.stateElement) ∧
      ∀ l ∈ out.added, ValidProof c (leavesAfter c L updated added) l.stateElement := by
  obtain ⟨out,happly⟩ := applyBlock_returns acc added hdistinct hvalid (by omega)
  have h := appliedTo_of_ok hrep hdistinct hvalid (by omega) happly
  have v := validUpdates_of_validProof added hdistinct hvalid
  refine ⟨out,happly,h.represents,?_,?_,?_,?_⟩
  · have hperm := (flatten_groupAt_perm fun l hl => v.length_lt hrep.length_lt hl).map (fun l => l.withProof [])
    rw [h.updatedLeaves,List.map_flatten,List.map_map]
    rw [List.map_flatMap,List.flatMap_def] at hperm
    simpa [Function.comp_def] using hperm
  · rw [h.addedLeaves]
    refine List.ext_getElem? fun j => ?_
    simp only [List.getElem?_map,List.getElem?_mapIdx,Option.map_map]
    rfl
  · rw [h.updatedLeaves]
    intro l hl
    obtain ⟨group,hgroup,hmem⟩ := List.mem_flatten.mp hl
    obtain ⟨k,-,rfl⟩ := List.mem_map.mp hgroup
    obtain ⟨e,he,rfl⟩ := List.mem_map.mp hmem
    refine validPath_iff.mpr ⟨?_,by rw [length_leavesAfter]; rfl⟩
    rw [length_leavesAfter]
    exact Nat.lt_add_right _ (v.inTree (mem_groupAt.mp he).1).lt
  · rw [h.addedLeaves]
    intro l hl
    obtain ⟨j,hj,rfl⟩ := List.mem_mapIdx.mp hl
    have hindex : (UInt64.ofNat (L.length + j)).toNat = L.length + j := toNat_ofNat_of_lt (by omega)
    refine validPath_iff.mpr ⟨?_,?_⟩
    · change (UInt64.ofNat (L.length + j)).toNat < _
      rw [hindex,length_leavesAfter]
      omega
    · change added[j].merkleProof ++ _ = path _ _ _ (UInt64.ofNat (L.length + j)).toNat
      rw [hempty _ (List.getElem_mem hj),hindex,length_leavesAfter]
      rfl

theorem represents_singleton (c : Crypto) (h : Hash256) : Represents c ⟨fun _ => h, 1⟩ [h] := by
  refine ⟨rfl,fun k hk => ?_⟩
  cases k with
  | zero => simp [nodeAt,leafFn]
  | succ k =>
    have : 1 / 2^(k+1) = 0 := Nat.div_eq_of_lt (Nat.one_lt_two_pow (Nat.succ_ne_zero k))
    rw [List.length_singleton,this] at hk
    omega

theorem validProof_singleton (c : Crypto) (h : Hash256) : ValidProof c [h] ⟨0, []⟩ :=
  ⟨0,⟨by simp,by simp⟩,rfl⟩

theorem applyBlock_refines_leafList_single :
    ∃ out, ElementAccumulator.applyBlock sampleCrypto ⟨fun _ => ElementLeaf.hash sampleCrypto ⟨0, ⟨0, []⟩, default, false⟩, 1⟩
        [⟨0, ⟨0, []⟩, default, true⟩] [⟨1, ⟨unassignedLeafIndex, []⟩, default, false⟩] = .ok out ∧
      Represents sampleCrypto out.acc (leavesAfter sampleCrypto
        [ElementLeaf.hash sampleCrypto ⟨0, ⟨0, []⟩, default, false⟩] [⟨0, ⟨0, []⟩, default, true⟩]
        [⟨1, ⟨unassignedLeafIndex, []⟩, default, false⟩]) := by
  obtain ⟨out,happly,hrep,-⟩ := applyBlock_refines_leafList sampleCrypto _ _
    [⟨0,⟨0,[]⟩,default,true⟩] [⟨1,⟨unassignedLeafIndex,[]⟩,default,false⟩]
    (represents_singleton sampleCrypto (ElementLeaf.hash sampleCrypto ⟨0,⟨0,[]⟩,default,false⟩))
    (by simp) (by simpa using validProof_singleton _ _) (by simp [ElementLeaf.merkleProof]) (by decide)
  exact ⟨out,happly,hrep⟩

end QdayNode
