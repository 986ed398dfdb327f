import QdayNode.Consensus.Reencoding

/-!
# Multiproofs from an untrusted stream

The positions and the number of leaves in a stream are whatever a peer wrote.  Once each
position is below the number of leaves, every tree that the recursions of
`types/multiproof.go` walk has a range between odd multiples of its width, and this
survives the halving also where the sum of two bounds overflows.  The recursions follow
one another step by step, so the expansion takes as many hashes as were counted.
-/
namespace QdayNode
open ByteString Decoder Word64 MerkleForest

variable {c : Crypto} {h : ℕ}

section Visits

/-- The expansion of a range uses the hashes that were counted for it, whatever they are, and leaves the rest. -/
structure Uses (c : Crypto) (fuel i j : ℕ) (leaves : List ElementLeaf) (size : ℕ) : Prop where
  counted : proofSize fuel i j leaves = .ok size
  expands : ∀ hashes rest, hashes.length = size →
    ∃ root out, expandVisit c fuel i j leaves (hashes ++ rest) = .ok (root, out, rest)

theorem setSiblings_returns {leaves out : List ElementLeaf} (root : Hash256)
    (hshape : out.map ElementLeaf.shape = leaves.map ElementLeaf.shape) (hlen : ∀ l ∈ leaves, h < l.merkleProof.length) :
    ∃ out', setSiblings out h root = .ok out' := by
  refine ⟨_,setSiblings_eq root fun l hl => ?_⟩
  obtain ⟨m,hm,hsame⟩ := exists_shape hshape hl
  rw [(shape_eq hsame).2]
  exact hlen m hm

/-- Over a range of height `h`, leaves with room for `h` hashes can be expanded. -/
theorem exists_uses {fuel i j : ℕ} {leaves : List ElementLeaf} (hfuel : h < fuel) (v : SpansRows h i j)
    (hsorted : SortedLeaves leaves) (hlen : ∀ l ∈ leaves, h ≤ l.merkleProof.length) :
    ∃ size, Uses c fuel i j leaves size := by
  induction fuel generalizing h i j leaves with
  | zero => omega
  | succ fuel ih =>
    cases leaves with
    | nil =>
      refine ⟨1,by simp [proofSize],fun hashes rest hone => ?_⟩
      obtain ⟨hash,rfl⟩ := List.length_eq_one_iff.mp hone
      exact ⟨hash,[],by simp [expandVisit]⟩
    | cons first others =>
      cases h with
      | zero =>
        refine ⟨0,?_,fun hashes rest hnone => ?_⟩
        · simp only [proofSize,List.isEmpty_cons,Bool.false_eq_true,v.trailingZeros,if_true,if_false]
        · obtain rfl := List.length_eq_zero_iff.mp hnone
          refine ⟨first.hash c,first :: others,?_⟩
          simp only [expandVisit,v.trailingZeros,if_true,List.nil_append]
      | succ h =>
        obtain ⟨vL,vR⟩ := v.halves
        set mid := (i + j) % 2^64 / 2 with hmid
        have hsplit := splitLeaves_eq_filter mid hsorted
        set leaves := first :: others with hleaves
        have hroomL : ∀ l ∈ leaves.filter (·.leafIndex < mid), h < l.merkleProof.length :=
          fun l hl => hlen l (List.mem_of_mem_filter hl)
        have hroomR : ∀ l ∈ leaves.filter (mid ≤ ·.leafIndex), h < l.merkleProof.length :=
          fun l hl => hlen l (List.mem_of_mem_filter hl)
        obtain ⟨sizeL,usesL⟩ := ih (by omega) vL (hsorted.filter _) fun l hl => (hroomL l hl).le
        obtain ⟨sizeR,usesR⟩ := ih (by omega) vR (hsorted.filter _) fun l hl => (hroomR l hl).le
        refine ⟨sizeL + sizeR,?_,fun hashes rest hsize => ?_⟩
        · simp only [proofSize,hleaves,List.isEmpty_cons,Bool.false_eq_true,if_false,v.trailingZeros,
            Nat.succ_ne_zero]
          rw [← hleaves,← hmid,hsplit]
          simp only [usesL.counted,usesR.counted,Outcome.ok_bind]
          rfl
        · -- the left half takes the first hashes, the right half those behind them
          have hcut := List.take_append_drop sizeL hashes
          have hlenL : (hashes.take sizeL).length = sizeL := List.length_take_of_le (by omega)
          have hlenR : (hashes.drop sizeL).length = sizeR := by
            rw [List.length_drop]
            omega
          obtain ⟨leftRoot,left,hL⟩ := usesL.expands _ (hashes.drop sizeL ++ rest) hlenL
          obtain ⟨rightRoot,right,hR⟩ := usesR.expands _ rest hlenR
          rw [← List.append_assoc,hcut] at hL
          obtain ⟨right',hsetR⟩ := setSiblings_returns leftRoot (expandVisit_fits vR (hsorted.filter _) hR).1 hroomR
          obtain ⟨left',hsetL⟩ := setSiblings_returns rightRoot (expandVisit_fits vL (hsorted.filter _) hL).1 hroomL
          refine ⟨c.sumPair leftRoot rightRoot,left' ++ right',?_⟩
          simp only [expandVisit,hleaves,v.trailingZeros,Nat.succ_ne_zero,if_false,Nat.add_sub_cancel]
          rw [← hleaves,← hmid,hsplit]
          simp only [hL,hR,hsetR,hsetL,Outcome.ok_bind]
          rfl

end Visits

section Trees

variable {n : ℕ} {txns : List V2Transaction}

/-- The trees as `expandMultiproof` walks them: the hashes that were not used, and the leaves with their proofs. -/
def expandTrees (c : Crypto) (txns : List V2Transaction) (proof : List Hash256) :
    Outcome (List Hash256 × List ElementLeaf) :=
  forEachTree (forEachElementLeaf c txns) (fun i j leaves (st : List Hash256 × List ElementLeaf) => do
    let (_, leaves, proof) ← expandVisit c 65 i j leaves st.1
    return (proof, st.2 ++ leaves)) (proof, [])

theorem expandMultiproof_eq (txns : List V2Transaction) (proof : List Hash256) :
    expandMultiproof c txns proof = do
      let (_, written) ← expandTrees c txns proof
      return (elementPlaces c).update (BlockDiffs.readBack written) 0 txns := rfl

/-- What the first trees of the list count, and that their expansion takes that many hashes from the front. -/
def TreesUse (c : Crypto) (n : ℕ) (leaves : List ElementLeaf) (heights : List ℕ) (size : ℕ) : Prop :=
  (∀ before, heights.foldlM (fun size k =>
      if treeLeaves leaves k = [] then .ok size
      else do
        let n ← proofSize 65 ((n / 2^k - 1) * 2^k) (n / 2^k * 2^k) (treeLeaves leaves k)
        return size + n) before = (.ok (before + size) : Outcome ℕ)) ∧
  ∀ hashes rest written, hashes.length = size → ∃ written', heights.foldlM (fun (st : List Hash256 × List ElementLeaf) k =>
      if treeLeaves leaves k = [] then .ok st
      else do
        let (_, leaves, proof) ← expandVisit c 65 ((n / 2^k - 1) * 2^k) (n / 2^k * 2^k) (treeLeaves leaves k) st.1
        return (proof, st.2 ++ leaves)) (hashes ++ rest, written) = (.ok (rest, written') : Outcome _)

theorem InForest.exists_treesUse {leaves : List ElementLeaf} (v : InForest n leaves) (heights : List ℕ)
    (hrows : ∀ k ∈ heights, k < 64) : ∃ size, TreesUse c n leaves heights size := by
  induction heights with
  | nil =>
    refine ⟨0,fun before => rfl,fun hashes rest written hnone => ?_⟩
    obtain rfl := List.length_eq_zero_iff.mp hnone
    exact ⟨written,rfl⟩
  | cons k heights ih =>
    rw [List.forall_mem_cons] at hrows
    obtain ⟨size,hcounted,hexpands⟩ := ih hrows.2
    by_cases hempty : treeLeaves leaves k = []
    · refine ⟨size,fun before => ?_,fun hashes rest written hsize => ?_⟩
      · rw [List.foldlM_cons,if_pos hempty]
        exact hcounted before
      · rw [List.foldlM_cons,if_pos hempty]
        exact hexpands hashes rest written hsize
    · obtain ⟨own,huses⟩ := exists_uses (c := c) (by omega : k < 65) (v.spansRows hempty) (sorted_treeLeaves leaves k)
        fun l hl => (mem_treeLeaves.mp hl).2.ge
      refine ⟨own + size,fun before => ?_,fun hashes rest written hsize => ?_⟩
      · simp only [List.foldlM_cons,hempty,if_false,huses.counted,Outcome.ok_bind]
        rw [← Nat.add_assoc]
        exact hcounted (before + own)
      · have hcut := List.take_append_drop own hashes
        obtain ⟨root,out,hvisit⟩ := huses.expands (hashes.take own) (hashes.drop own ++ rest)
          (List.length_take_of_le (by omega))
        rw [← List.append_assoc,hcut] at hvisit
        obtain ⟨written',hrest⟩ := hexpands (hashes.drop own) rest (written ++ out) (by rw [List.length_drop]; omega)
        refine ⟨written',?_⟩
        simp only [List.foldlM_cons,hempty,if_false,hvisit,Outcome.ok_bind]
        exact hrest

theorem InForest.expandTrees_exact (v : InForest n (forEachElementLeaf c txns)) :
    ∃ size, multiproofSize c txns = .ok size ∧
      ∀ hashes, hashes.length = size → ∃ written, expandTrees c txns hashes = .ok ([], written) := by
  obtain ⟨size,hcounted,hexpands⟩ := v.exists_treesUse (c := c) (List.range 64) fun k hk => List.mem_range.mp hk
  refine ⟨size,?_,fun hashes hsize => ?_⟩
  · rw [multiproofSize,v.forEachTree_eq,hcounted 0,Nat.zero_add]
  · obtain ⟨written,hrun⟩ := hexpands hashes [] [] hsize
    rw [List.append_nil] at hrun
    rw [expandTrees,v.forEachTree_eq]
    exact ⟨written,hrun⟩

end Trees

section Streams

instance safe_decodeMultiproof : Safe (decodeMultiproof c) := by
  unfold decodeMultiproof
  refine @safe_bind _ _ _ _ inferInstance fun txns => @safe_bind _ _ _ _ inferInstance fun numLeaves => ?_
  split
  · infer_instance
  · rename_i hindex
    have hindex' : ∀ l ∈ forEachElementLeaf c txns, l.stateElement.leafIndex < numLeaves :=
      fun l hl => UInt64.not_le.mp fun hle => hindex ⟨l, hl, hle⟩
    obtain ⟨size, hsize, hexact⟩ := (inForest_sizeProofs hindex').expandTrees_exact
    simp only [hsize]
    constructor
    intro s
    have hread : Yields (fun l : List Hash256 => l.length = size ∧ ∀ a ∈ l, True) (readCount (readFixed 32) size) :=
      Yields.readCount (fun _ _ _ _ => trivial) size
    apply ((safe_readCount size).returns s).bind
    rintro ⟨hashes, rest⟩ hhashes
    obtain ⟨written, hrun⟩ := hexact hashes (hread s hashes rest hhashes).1
    refine (safe_call ?_).returns rest
    rw [expandMultiproof_eq, hrun]
    exact Outcome.returns_ok _

/-- Decoding never panics.  The length of a proof that is allocated is not negative, and once the positions were
checked, the expansion uses exactly the hashes that were counted, whatever was read for them. -/
theorem decodeMultiproof_safe (c : Crypto) (stream : Bytes) (txns : List V2Transaction) (numLeaves : UInt64) :
    ((decodeMultiproof c).run stream).Returns ∧
    (∀ l ∈ forEachElementLeaf c txns, l.stateElement.leafIndex < numLeaves →
      0 < mergeHeight l.leafIndex numLeaves.toNat) ∧
    ((∀ l ∈ forEachElementLeaf c txns, l.stateElement.leafIndex < numLeaves) →
      ∃ size, multiproofSize c (sizeProofs c numLeaves txns) = .ok size ∧ ∀ hashes, hashes.length = size →
        ∃ written, expandTrees c (sizeProofs c numLeaves txns) hashes = .ok ([], written)) := by
  refine ⟨safe_decodeMultiproof.returns stream,fun l hl hlt => ?_,fun hindex =>
    (inForest_sizeProofs hindex).expandTrees_exact⟩
  obtain ⟨k,hin⟩ := exists_inTree (UInt64.lt_iff_toNat_lt.mp hlt)
  have hheight := hin.mergeHeight
  rw [mergeHeight_comm] at hheight
  change 0 < mergeHeight l.stateElement.leafIndex.toNat numLeaves.toNat
  omega

def sampleRepeated : List V2Transaction :=
  [{ siacoinInputs := List.replicate 2 ⟨⟨default, ⟨2^63 + 5, []⟩, ⟨⟨1, 0⟩, default⟩, 0⟩, ⟨.publicKey default, [], []⟩⟩ }]

theorem decodeMultiproof_safe_repeated : ∃ size,
    multiproofSize sampleCrypto (sizeProofs sampleCrypto (2^63 + 2^62) sampleRepeated) = .ok size ∧
    ∀ hashes, hashes.length = size → ∃ written,
      expandTrees sampleCrypto (sizeProofs sampleCrypto (2^63 + 2^62) sampleRepeated) hashes = .ok ([], written) :=
  (decodeMultiproof_safe sampleCrypto [] sampleRepeated (2^63 + 2^62)).2.2 (by decide +kernel)

end Streams

end QdayNode
