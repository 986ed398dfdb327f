import QdayNode.Consensus.Accumulator

/-!
# Adding a batch of leaves

While leaf `n + i` is merged upwards, the proofs of the batch and the recorded growth
of the older trees are kept as `MergingPath`s over the final leaf hashes `f`; when a
free height is found they become the sibling paths of the forest with one more leaf.
-/
namespace QdayNode
open ByteString Word64 MerkleForest

variable {k i bit : ℕ} {acc : ElementAccumulator}

variable (c : Crypto) (f : ℕ → Hash256) (added : List ElementLeaf) (n : ℕ)

/-- The batch after its first `cnt` leaves got their index and the siblings `paths`. -/
def placed (cnt : ℕ) (paths : ℕ → List Hash256) : List ElementLeaf :=
  added.mapIdx fun j l => if j < cnt then (l.withIndex (UInt64.ofNat (n+j))).extend (paths j) else l

/-- The state after `i` leaves of the batch. -/
structure AddInvariant (i : ℕ) (st : AddState) : Prop where
  numLeaves : st.acc.numLeaves.toNat = n + i
  roots : HoldsRoots c.sumPair f (n+i) st.acc.trees
  leaves : ∃ paths, st.leaves = placed added n i paths ∧
    ∀ j < i, PathFrom c.sumPair f (n+i) (n+j) 0 (paths j)
  growth : ∀ bit, n.testBit bit = true →
    PathFrom c.sumPair f (n+i) (clearBits n (bit+1)) bit (st.treeGrowth bit)

/-- The state while leaf `i` of the batch is merged, its subtree having reached row `k`. -/
structure MergeInvariant (i k : ℕ) (h : Hash256) (st : AddState) : Prop where
  numLeaves : st.acc.numLeaves.toNat = n + i
  roots : HoldsRoots c.sumPair f (n+i) st.acc.trees
  low : 2^k ∣ n + i + 1
  root : h = nodeAt c.sumPair f k ((n+i) / 2^k)
  leaves : ∃ paths, st.leaves = placed added n (i+1) paths ∧
    ∀ j ≤ i, MergingPath c.sumPair f (n+i) k (n+j) 0 (paths j)
  growth : ∀ bit, n.testBit bit = true →
    MergingPath c.sumPair f (n+i) k (clearBits n (bit+1)) bit (st.treeGrowth bit)

variable {c f added n}

theorem ElementLeaf.extend_extend (l : ElementLeaf) (p q : List Hash256) :
    (l.extend p).extend q = l.extend (p ++ q) := by
  simp [ElementLeaf.extend,List.append_assoc]

theorem ElementLeaf.extend_nil (l : ElementLeaf) : l.extend [] = l := by
  simp [ElementLeaf.extend]

variable {initialLeaves : UInt64} {h : Hash256} {st : AddState} {fuel m : ℕ}

theorem shl1_of_lt (hk : k < 64) : shl1 k = 2^k := if_pos hk

theorem clearBits_le (x m : ℕ) : clearBits x m ≤ x := Nat.div_mul_le_self x (2^m)

/-- Appending roots to a placed batch appends them to its siblings, by the columns they share
with the new leaf. -/
theorem appendRoots_placed {i k : ℕ} (hk : k + 1 < 64) (hlow : 2^k ∣ n + i + 1)
    (hlow' : 2^(k+1) ∣ n + i + 1) (oldRoot h : Hash256) (paths : ℕ → List Hash256) :
    appendRoots i k oldRoot h (placed added n (i+1) paths) =
      placed added n (i+1) fun j =>
        paths j ++ if (n+j) / 2^k = (n+i) / 2^k then [oldRoot]
          else if (n+j) / 2^(k+1) = (n+i) / 2^(k+1) then [h] else [] := by
  unfold appendRoots placed
  rw [List.mapIdx_mapIdx,shl1_of_lt (Nat.lt_of_succ_lt hk),shl1_of_lt hk]
  congr 1
  funext j l
  by_cases hj : j ≤ i
  · have hwin := lt_add_iff_div_eq hlow (Nat.add_le_add_left hj n)
    have hwin' := lt_add_iff_div_eq hlow' (Nat.add_le_add_left hj n)
    simp only [Function.comp_apply,hj,and_true,Nat.lt_succ_iff,if_true,← hwin,← hwin',Nat.add_assoc,
      Nat.add_lt_add_iff_left]
    split_ifs <;> simp [ElementLeaf.extend_extend]
  · simp [hj]

/-- `recordGrowth` appends by the same rule. -/
theorem recordGrowth_eq {numLeaves : UInt64} (hinit : initialLeaves.toNat = n)
    (hnum : numLeaves.toNat = n + i) (hcap : n + i + 1 < 2^64) (hk : k + 1 < 64)
    (hlow : 2^k ∣ n + i + 1) (hlow' : 2^(k+1) ∣ n + i + 1) (hbit : n.testBit bit = true)
    (oldRoot h : Hash256) (growth : ℕ → List Hash256) :
    recordGrowth initialLeaves numLeaves k oldRoot h growth bit =
      growth bit ++ if clearBits n (bit+1) / 2^k = (n+i) / 2^k then [oldRoot]
        else if clearBits n (bit+1) / 2^(k+1) = (n+i) / 2^(k+1) then [h] else [] := by
  have hstart : clearBits n (bit+1) ≤ n + i := (clearBits_le n (bit+1)).trans (Nat.le_add_right n i)
  -- the start of a subtree of `2^m` leaves ending at the new leaf, as the code compares it
  have hwindow : ∀ m, m < 64 → 2^m ∣ n + i + 1 →
      (UInt64.ofNat (clearBits n (bit+1)) ≥ numLeaves + 1 - UInt64.ofNat (shl1 m) ↔
        clearBits n (bit+1) / 2^m = (n+i) / 2^m) := by
    intro m hm hdvd
    have hpow : 2^m < 2^64 := Nat.pow_lt_pow_right (by omega) hm
    have hle : 2^m ≤ n + i + 1 := Nat.le_of_dvd (by omega) hdvd
    have hnext : (numLeaves + 1).toNat = n + i + 1 := by
      rw [UInt64.toNat_add,hnum,UInt64.toNat_one,Nat.mod_eq_of_lt hcap]
    have hshift : (UInt64.ofNat (shl1 m)).toNat = 2^m := by
      rw [shl1_of_lt hm,toNat_ofNat_of_lt hpow]
    rw [ge_iff_le,UInt64.le_iff_toNat_le,UInt64.toNat_sub_of_le,hnext,hshift,
      toNat_ofNat_of_lt (by omega),← lt_add_iff_div_eq hdvd hstart]
    · omega
    · rw [UInt64.le_iff_toNat_le,hnext,hshift]
      exact hle
  unfold recordGrowth
  simp only [hinit,hbit,not_true_eq_false,if_false,hwindow k (by omega) hlow,hwindow (k+1) hk hlow']
  split_ifs <;> simp

theorem MergeInvariant.merge
    (inv : MergeInvariant c f added n i k h st) (hinit : initialLeaves.toNat = n)
    (hcap : n + i + 1 < 2^64) (hk : k + 1 < 64) (hodd : (n+i) / 2^k % 2 = 1) :
    MergeInvariant c f added n i (k+1) (c.sumPair (st.acc.trees k) h)
      { st with
        leaves := appendRoots i k (st.acc.trees k) h st.leaves
        treeGrowth := recordGrowth initialLeaves st.acc.numLeaves k (st.acc.trees k) h st.treeGrowth } := by
  have hlow' := dvd_succ_of_odd inv.low hodd
  obtain ⟨paths,hleaves,hpaths⟩ := inv.leaves
  have hplaced := @appendRoots_placed added n i k hk inv.low hlow' (st.acc.trees k) h paths
  rw [← hleaves] at hplaced
  refine ⟨inv.numLeaves,inv.roots,hlow',?_,⟨_,hplaced,?_⟩,?_⟩
  · rw [inv.root]
    exact carry_node inv.roots hodd
  · intro j hj
    have := (hpaths j hj).merge hodd
    rwa [← inv.roots k hodd,← inv.root] at this
  · intro bit hbit
    have := (inv.growth bit hbit).merge hodd
    rw [← inv.roots k hodd,← inv.root] at this
    simpa only [recordGrowth_eq hinit inv.numLeaves hcap hk inv.low hlow' hbit] using this

theorem MergeInvariant.finish
    (inv : MergeInvariant c f added n i k h st) (hcap : n + i + 1 < 2^64) (heven : (n+i) / 2^k % 2 = 0) :
    AddInvariant c f added n (i+1)
      { st with
        acc := { trees := Function.update st.acc.trees k h, numLeaves := st.acc.numLeaves + 1 } } := by
  obtain ⟨paths,hleaves,hpaths⟩ := inv.leaves
  refine ⟨?_,?_,⟨paths,hleaves,?_⟩,?_⟩
  · rw [UInt64.toNat_add,inv.numLeaves,UInt64.toNat_one,Nat.mod_eq_of_lt hcap,Nat.add_assoc]
  · rw [inv.root]
    exact inv.roots.insert inv.low heven
  · intro j hj
    exact (hpaths j (Nat.lt_succ_iff.mp hj)).finish inv.low heven
  · intro bit hbit
    exact (inv.growth bit hbit).finish inv.low heven

theorem hasTreeAtHeight_iff (acc : ElementAccumulator) (k : ℕ) :
    acc.hasTreeAtHeight k = true ↔ acc.numLeaves.toNat / 2^k % 2 = 1 := testBit_iff_div _ _

/-- The walk up the forest always finds a free height below 64. -/
theorem mergeUp_spec (hinit : initialLeaves.toNat = n)
    (hcap : n + i + 1 < 2^64) (hfuel : fuel + k = 64)
    (inv : MergeInvariant c f added n i k h st) :
    AddInvariant c f added n (i+1) (mergeUp c initialLeaves i fuel k h st) := by
  induction fuel generalizing k h st with
  | zero =>
    have := Nat.le_of_dvd (by omega) inv.low
    have hpow : 2^64 ≤ 2^k := Nat.pow_le_pow_right (by omega) (by omega)
    omega
  | succ fuel ih =>
    rw [mergeUp]
    split_ifs with htree
    · have hodd := (hasTreeAtHeight_iff _ _).mp htree
      rw [inv.numLeaves] at hodd
      -- with a tree at height `k`, all `2^(k+1)` last positions are taken
      have hk : k + 1 < 64 := by
        have := Nat.le_of_dvd (by omega) (dvd_succ_of_odd inv.low hodd)
        by_contra hge
        have hpow : 2^64 ≤ 2^(k+1) := Nat.pow_le_pow_right (by omega) (by omega)
        omega
      exact ih (by omega) (inv.merge hinit hcap hk hodd)
    · refine inv.finish hcap ?_
      rw [hasTreeAtHeight_iff,inv.numLeaves] at htree
      omega

theorem addLeaf_spec (hinit : initialLeaves.toNat = n)
    (hcap : n + i + 1 < 2^64) (hi : i < added.length)
    (hf : ∀ l, added[i]? = some l → f (n+i) = (l.withIndex (UInt64.ofNat (n+i))).hash c)
    (inv : AddInvariant c f added n i st) :
    AddInvariant c f added n (i+1) (addLeaf c initialLeaves i st) := by
  obtain ⟨paths,hleaves,hpaths⟩ := inv.leaves
  have hnum : st.acc.numLeaves = UInt64.ofNat (n+i) :=
    UInt64.toNat_inj.mp (by rw [inv.numLeaves,toNat_ofNat_of_lt (by omega)])
  have hget : st.leaves[i]? = some added[i] := by
    rw [hleaves]
    simp [placed,hi]
  unfold addLeaf
  simp only [hget]
  refine mergeUp_spec hinit hcap rfl
    ⟨inv.numLeaves,inv.roots,one_dvd _,?_,⟨Function.update paths i [],?_,?_⟩,?_⟩
  · rw [hnum,← hf added[i] (List.getElem?_eq_getElem hi)]
    simp [nodeAt]
  · rw [hleaves,hnum]
    refine List.ext_getElem? fun j => ?_
    rw [placed,placed,List.getElem?_set]
    simp only [List.length_mapIdx,List.getElem?_mapIdx]
    by_cases hj : i = j
    · subst hj
      simp [hi,ElementLeaf.extend_nil]
    · have hlt : (j < i + 1) = (j < i) := by
        rw [Nat.lt_succ_iff,Nat.le_iff_lt_or_eq]
        simp [Ne.symm hj]
      simp only [hj,if_false,hlt,Function.update_of_ne (Ne.symm hj)]
  · intro j hj
    rcases Nat.lt_or_eq_of_le hj with hlt | rfl
    · rw [Function.update_of_ne hlt.ne]
      exact (hpaths j hlt).merging
    · rw [Function.update_self]
      exact mergingPath_self f _
  · intro bit hbit
    exact (inv.growth bit hbit).merging

theorem addLeavesFrom_spec (hinit : initialLeaves.toNat = n)
    (hf : ∀ j l, added[j]? = some l → f (n+j) = (l.withIndex (UInt64.ofNat (n+j))).hash c) (hm : i + m ≤ added.length) (hcap : n + i + m < 2^64)
    (inv : AddInvariant c f added n i st) :
    AddInvariant c f added n (i+m) (addLeavesFrom c initialLeaves m i st) := by
  induction m generalizing i st with
  | zero => exact inv
  | succ m ih =>
    have hstep := addLeaf_spec hinit (by omega) (by omega) (hf i) inv
    have hrest := ih (by omega) (by omega) hstep
    rwa [Nat.add_right_comm,Nat.add_assoc] at hrest

theorem addLeavesFrom_add (initialLeaves : UInt64) (a b i : ℕ) (st : AddState) :
    addLeavesFrom c initialLeaves (a+b) i st =
      addLeavesFrom c initialLeaves b (i+a) (addLeavesFrom c initialLeaves a i st) := by
  induction a generalizing i st with
  | zero => simp [addLeavesFrom]
  | succ a ih => rw [Nat.succ_add,addLeavesFrom,ih,addLeavesFrom,Nat.succ_add_eq_add_succ]

theorem mergeUp_acc_of_full (initialLeaves : UInt64) (i : ℕ)
    (hfuel : fuel + k = 64) (hfull : st.acc.numLeaves.toNat = 2^64 - 1) :
    (mergeUp c initialLeaves i fuel k h st).acc = st.acc := by
  induction fuel generalizing k h st with
  | zero => rfl
  | succ fuel ih =>
    have htree : st.acc.hasTreeAtHeight k = true := by
      rw [ElementAccumulator.hasTreeAtHeight,hfull,Nat.testBit_two_pow_sub_one]
      exact decide_eq_true (by omega)
    rw [mergeUp,if_neg (not_not.mpr htree)]
    exact ih (by omega) hfull

theorem addLeavesFrom_acc_of_full (initialLeaves : UInt64)
    (hfull : st.acc.numLeaves.toNat = 2^64 - 1) :
    (addLeavesFrom c initialLeaves m i st).acc = st.acc := by
  induction m generalizing i st with
  | zero => rfl
  | succ m ih =>
    have hstep : (addLeaf c initialLeaves i st).acc = st.acc := by
      unfold addLeaf
      split
      · rfl
      · exact mergeUp_acc_of_full initialLeaves i rfl hfull
    rw [addLeavesFrom,ih (hstep ▸ hfull),hstep]

theorem inTree_clearBits (hbit : n.testBit bit = true) : InTree n bit (clearBits n (bit+1)) := by
  have hodd := (testBit_iff_div n bit).mp hbit
  refine ⟨hodd,?_⟩
  unfold clearBits
  rw [pow_succ,← Nat.div_div_eq_div_mul,Nat.mul_comm (2^bit) 2,← Nat.mul_assoc,
    Nat.mul_div_cancel _ (Nat.two_pow_pos bit)]
  omega

theorem addInvariant_start (hnum : acc.numLeaves.toNat = n)
    (hroots : HoldsRoots c.sumPair f n acc.trees) :
    AddInvariant c f added n 0 ⟨acc, added, fun _ => []⟩ := by
  refine ⟨hnum,hroots,⟨fun _ => [],?_,?_⟩,?_⟩
  · refine List.ext_getElem? fun j => ?_
    simp [placed,List.getElem?_mapIdx]
  · intro j hj
    omega
  · intro bit hbit
    exact ⟨0,rfl,inTree_clearBits hbit⟩

/-- `addLeaves` appends the batch to the forest, with consecutive indices and valid proofs, and
records how the proofs under each older tree grow. -/
theorem addLeaves_spec (hnum : acc.numLeaves.toNat = n)
    (hroots : HoldsRoots c.sumPair f n acc.trees) (hcap : n + added.length < 2^64)
    (hf : ∀ j l, added[j]? = some l → f (n+j) = (l.withIndex (UInt64.ofNat (n+j))).hash c) :
    AddInvariant c f added n added.length (addLeaves c acc added) := by
  have hrun := addLeavesFrom_spec hnum hf (Nat.zero_add _).le (by omega) (addInvariant_start hnum hroots)
  rwa [Nat.zero_add] at hrun

/-- Whatever the size of the batch, the forest grows until its counter is exhausted. -/
theorem addLeaves_saturates (hnum : acc.numLeaves.toNat = n)
    (hroots : HoldsRoots c.sumPair f n acc.trees)
    (hf : ∀ j l, added[j]? = some l → f (n+j) = (l.withIndex (UInt64.ofNat (n+j))).hash c) :
    (addLeaves c acc added).acc.numLeaves.toNat = min (n + added.length) (2^64 - 1) ∧
      HoldsRoots c.sumPair f (min (n + added.length) (2^64 - 1)) (addLeaves c acc added).acc.trees := by
  by_cases hcap : n + added.length < 2^64
  · have hadd := addLeaves_spec hnum hroots hcap hf
    rw [Nat.min_eq_left (by omega)]
    exact ⟨hadd.numLeaves,hadd.roots⟩
  · -- the first leaves fill the forest, the others are lost
    have hn : n < 2^64 := hnum ▸ acc.numLeaves.toNat_lt
    have hsplit : added.length = (2^64 - 1 - n) + (added.length - (2^64 - 1 - n)) := by omega
    have hfill := addLeavesFrom_spec (m := 2^64 - 1 - n) hnum hf (by omega) (by omega)
      (addInvariant_start hnum hroots)
    have hfull : (addLeavesFrom c acc.numLeaves (2^64 - 1 - n) 0 ⟨acc,added,fun _ => []⟩).acc.numLeaves.toNat =
        2^64 - 1 := by
      rw [hfill.numLeaves]
      omega
    have hroots' := hfill.roots
    rw [Nat.min_eq_right (by omega)]
    rw [← hfill.numLeaves,hfull] at hroots'
    unfold addLeaves
    rw [hsplit,addLeavesFrom_add,addLeavesFrom_acc_of_full _ hfull]
    exact ⟨hfull,hroots'⟩

end QdayNode
