import QdayNode.Consensus.UpdateProof

/-!
# Membership

The leaf at position `i` of the accumulator was hashed together with `i`.  The proof
length a candidate presents selects the tree and only the low bits of its index steer
the climb, so the climb is compared with the path of the position in that tree that has
the same low bits; the index inside the leaf hash then forces the two to coincide.
-/
namespace QdayNode
open ByteString Word64 MerkleForest

/-- What a leaf stores beside its position. -/
structure LeafRecord where
  elementHash : Hash256
  spent : Bool
  deriving DecidableEq

def LeafRecord.preimage (r : LeafRecord) (i : ℕ) : Bytes :=
  ElementLeaf.preimage r.elementHash (UInt64.ofNat i) r.spent

def ElementLeaf.record (l : ElementLeaf) : LeafRecord := ⟨l.elementHash, l.spent⟩

def leafHashes (c : Crypto) (R : List LeafRecord) : List Hash256 :=
  R.mapIdx fun i r => c.sum256 (r.preimage i)

def nodePreimage (p : Hash256 × Hash256) : Bytes := 1 :: (p.1.val ++ p.2.val)

def forestMessages (c : Crypto) (R : List LeafRecord) : List Bytes :=
  R.mapIdx (fun i r => r.preimage i) ++
    (forestPairs c.sumPair (leafFn (leafHashes c R)) R.length).map nodePreimage

/-- The messages hashed while the proof of a candidate leaf is followed. -/
def proofMessages (c : Crypto) (l : ElementLeaf) : List Bytes :=
  ElementLeaf.preimage l.elementHash l.stateElement.leafIndex l.spent ::
    (climbPairs c.sumPair l.leafIndex 0 (l.hash c) l.merkleProof).map nodePreimage

variable {c : Crypto}

@[simp] theorem length_leafHashes (R : List LeafRecord) : (leafHashes c R).length = R.length := by
  simp [leafHashes]

theorem getElem?_leafHashes (R : List LeafRecord) (i : ℕ) :
    (leafHashes c R)[i]? = (R[i]?).map fun r => c.sum256 (r.preimage i) := List.getElem?_mapIdx

variable {R : List LeafRecord} {S : Set Bytes} {acc : ElementAccumulator}

theorem leafFn_leafHashes {i : ℕ} {r : LeafRecord} (hr : R[i]? = some r) :
    leafFn (leafHashes c R) i = c.sum256 (r.preimage i) := by
  rw [leafFn,List.getD_eq_getElem?_getD,getElem?_leafHashes,hr]
  rfl

theorem nodePreimage_injective : Function.Injective nodePreimage := by
  rintro ⟨a,b⟩ ⟨a',b'⟩ heq
  obtain ⟨rfl,hrest⟩ := (prefixCode_fixedBytes 32).apply (List.cons_injective heq)
  exact congrArg (Prod.mk a) (Subtype.ext hrest)

theorem leafPreimage_inj {h h' : Hash256} {i i' : UInt64} {b b' : Bool}
    (heq : ElementLeaf.preimage h i b = ElementLeaf.preimage h' i' b') : h = h' ∧ i = i' ∧ b = b' := by
  have hbytes := List.cons_injective heq
  simp only [List.append_assoc] at hbytes
  obtain ⟨rfl,hrest⟩ := (prefixCode_fixedBytes 32).apply hbytes
  obtain ⟨rfl,hspent⟩ := prefixCode_encodeUint64.apply hrest
  exact ⟨rfl,rfl,prefixCode_encodeBool.inj trivial trivial hspent⟩

theorem sumPair_injOn (hinj : Set.InjOn c.sum256 S) :
    Set.InjOn (Function.uncurry c.sumPair) (Set.preimage nodePreimage S) := by
  intro p hp q hq heq
  exact nodePreimage_injective (hinj hp hq heq)

/-- The position of the tree of height `k` with the low bits of `i`. -/
def positionIn (n k i : ℕ) : ℕ := (n / 2^k - 1) * 2^k + i % 2^k

theorem positionIn_mod (n k i : ℕ) : positionIn n k i % 2^k = i % 2^k := by
  rw [positionIn,Nat.mul_add_mod_self_right,Nat.mod_mod]

theorem inTree_positionIn {n k : ℕ} (i : ℕ) (hodd : n / 2^k % 2 = 1) : InTree n k (positionIn n k i) := by
  refine inTree_of_col hodd ?_
  rw [positionIn,Nat.mul_comm,Nat.mul_add_div (Nat.two_pow_pos k),Nat.div_eq_of_lt (Nat.mod_lt _ (Nat.two_pow_pos k)),
    Nat.add_zero]

theorem preimage_mem_forestMessages {i : ℕ} {r : LeafRecord} (hr : R[i]? = some r) :
    r.preimage i ∈ forestMessages c R := by
  obtain ⟨hlt,rfl⟩ := List.getElem?_eq_some_iff.mp hr
  exact List.mem_append_left _ (List.mem_mapIdx.mpr ⟨i,hlt,rfl⟩)

/-- A candidate accepted by `containsLeaf` is the stored leaf, with its sibling path. -/
theorem mem_of_containsLeaf {l : ElementLeaf}
    (hrep : Represents c acc (leafHashes c R)) (hinj : Set.InjOn c.sum256 S)
    (hforest : ∀ m ∈ forestMessages c R, m ∈ S) (hproof : ∀ m ∈ proofMessages c l, m ∈ S)
    (hcontains : acc.containsLeaf c l = true) :
    R[l.leafIndex]? = some l.record ∧ ValidProof c (leafHashes c R) l.stateElement := by
  simp only [ElementAccumulator.containsLeaf,Bool.and_eq_true,decide_eq_true_iff] at hcontains
  obtain ⟨htree,hroot⟩ := hcontains
  rw [hasTreeAtHeight_iff,hrep.numLeaves] at htree
  set f := leafFn (leafHashes c R) with hf
  set n := (leafHashes c R).length with hn
  set k := l.merkleProof.length with hk
  set pos := positionIn n k l.leafIndex with hpos
  have hin : InTree n k pos := inTree_positionIn _ htree
  have hlow : l.leafIndex % 2^k = pos % 2^k := (positionIn_mod _ _ _).symm
  rw [hrep.roots k htree,← hin.col,ElementLeaf.proofRoot,proofRoot] at hroot
  change _ = climb c.sumPair l.leafIndex 0 _ _ at hroot
  rw [climb_congr_low hlow (by rw [Nat.zero_add])] at hroot
  -- every pair joined in the tree or by the climb is among the messages
  have hpairs : ∀ x ∈ climbPairs c.sumPair pos 0 (l.hash c) l.merkleProof, x ∈ Set.preimage nodePreimage S := by
    rw [← climbPairs_congr_low hlow (by rw [Nat.zero_add])]
    exact fun x hx => hproof _ (List.mem_cons_of_mem _ (List.mem_map_of_mem hx))
  have htreePairs : ∀ j, 0 ≤ j → j < 0 + l.merkleProof.length →
      (nodeAt c.sumPair f j (2*(pos/2^(j+1))), nodeAt c.sumPair f j (2*(pos/2^(j+1))+1)) ∈
        Set.preimage nodePreimage S := by
    intro j _ hj
    refine hforest _ (List.mem_append_right _ (List.mem_map_of_mem ?_))
    rw [← length_leafHashes (c := c)]
    exact mem_forestPairs _ hin (by omega)
  obtain ⟨hleaf,hpath⟩ := climb_binding (sumPair_injOn hinj) hpairs htreePairs
    (by rw [Nat.zero_add]; exact hroot.symm)
  rw [pow_zero,Nat.div_one,nodeAt] at hleaf
  obtain ⟨r,hr⟩ : ∃ r, R[pos]? = some r := by
    refine ⟨_,List.getElem?_eq_getElem ?_⟩
    rw [← length_leafHashes (c := c)]
    exact hin.lt
  -- the index inside the leaf hash is the position
  rw [hf,leafFn_leafHashes hr] at hleaf
  have hstored : r.preimage pos ∈ S := hforest _ (preimage_mem_forestMessages hr)
  obtain ⟨helement,hindex,hspent⟩ := leafPreimage_inj (hinj (hproof _ List.mem_cons_self) hstored hleaf)
  have hlt : pos < 2^64 := by
    have := hin.lt
    have := hrep.length_lt
    omega
  have heq : l.leafIndex = pos := by
    rw [ElementLeaf.leafIndex,hindex,toNat_ofNat_of_lt hlt]
  refine ⟨?_,k,?_,?_⟩
  · rw [heq,hr,ElementLeaf.record,helement,hspent]
  · rwa [← heq] at hin
  · rwa [← heq] at hpath

/-- The count and the roots of the trees that are there determine what an accumulator stores. -/
theorem Represents.records_unique {acc' : ElementAccumulator} {R' : List LeafRecord}
    (hinj : Set.InjOn c.sum256 S) (hrep : Represents c acc (leafHashes c R)) (hrep' : Represents c acc' (leafHashes c R'))
    (hnum : acc'.numLeaves = acc.numLeaves) (htrees : ∀ i, acc.hasTreeAtHeight i = true → acc'.trees i = acc.trees i)
    (hS : ∀ x ∈ forestMessages c R, x ∈ S) (hS' : ∀ x ∈ forestMessages c R', x ∈ S) : R = R' := by
  have hlen : (leafHashes c R').length = (leafHashes c R).length := by rw [← hrep.numLeaves,← hrep'.numLeaves,hnum]
  have hsize : R'.length = R.length := by rwa [length_leafHashes,length_leafHashes] at hlen
  have hroots := hrep.roots
  have hroots' := hrep'.roots
  rw [hlen] at hroots'
  have hbits : ∀ k, (leafHashes c R).length.testBit k = true → acc'.trees k = acc.trees k := by
    intro k hk
    refine htrees k ?_
    rwa [ElementAccumulator.hasTreeAtHeight,hrep.numLeaves]
  rw [length_leafHashes] at hroots hroots' hbits
  refine List.ext_getElem (hsize.symm) fun i hi hi' => ?_
  have hr := List.getElem?_eq_getElem hi
  have hr' := List.getElem?_eq_getElem hi'
  have hleaf := hroots.binding (sumPair_injOn hinj) hroots' hbits
    (fun x hx => hS _ (List.mem_append_right _ (List.mem_map_of_mem hx)))
    (fun x hx => hS' _ (List.mem_append_right _ (List.mem_map_of_mem (by rwa [hsize])))) hi
  rw [leafFn_leafHashes hr,leafFn_leafHashes hr'] at hleaf
  obtain ⟨helement,-,hspent⟩ := leafPreimage_inj
    (hinj (hS _ (preimage_mem_forestMessages hr)) (hS' _ (preimage_mem_forestMessages hr')) hleaf)
  cases hrec : R[i]
  cases hrec' : R'[i]
  rw [hrec,hrec'] at helement hspent
  cases helement
  cases hspent
  rfl

/-- `containsLeaf` accepts only a stored leaf under its own index and sibling path. -/
theorem containsLeaf_sound (c : Crypto) (acc : ElementAccumulator) (R : List LeafRecord) (l : ElementLeaf)
    (hrep : Represents c acc (leafHashes c R))
    (hinj : Set.InjOn c.sum256 {m | m ∈ forestMessages c R ++ proofMessages c l})
    (hcontains : acc.containsLeaf c l = true) :
    l.leafIndex < R.length ∧
      l.merkleProof = path c.sumPair (leafFn (leafHashes c R)) R.length l.leafIndex ∧
      R[l.leafIndex]? = some ⟨l.elementHash, l.spent⟩ := by
  obtain ⟨hrecord,hproof⟩ := mem_of_containsLeaf hrep hinj (fun m hm => List.mem_append_left _ hm)
    (fun m hm => List.mem_append_right _ hm) hcontains
  obtain ⟨hlt,hpath⟩ := validPath_iff.mp hproof
  rw [length_leafHashes] at hlt hpath
  exact ⟨hlt,hpath,hrecord⟩

theorem containsLeaf_sound_pair :
    let R : List LeafRecord := [⟨default,false⟩,⟨default,true⟩]
    let h := leafFn (leafHashes sampleCrypto R)
    let acc : ElementAccumulator := ⟨fun _ => sampleCrypto.sumPair (h 0) (h 1),2⟩
    acc.containsLeaf sampleCrypto ⟨0,⟨1,[h 0]⟩,default,true⟩ = true ∧ R[1]? = some ⟨default,true⟩ := by
  intro R h acc
  have hrep : Represents sampleCrypto acc (leafHashes sampleCrypto R) := by
    refine ⟨rfl,fun k hk => ?_⟩
    obtain rfl : k = 1 := by
      match k, hk with
      | 0, hk => exact absurd hk (by decide)
      | 1, _ => rfl
      | k+2, hk =>
        have hlt : 2^1 < 2^(k+2) := Nat.pow_lt_pow_right (by omega) (by omega)
        have hzero : 2 / 2^(k+2) = 0 := Nat.div_eq_of_lt hlt
        change 2 / 2^(k+2) % 2 = 1 at hk
        omega
    have hcol : (leafHashes sampleCrypto R).length / 2^1 - 1 = 0 := by simp [R]
    rw [hcol,nodeAt,nodeAt,nodeAt]
  have hcontains : acc.containsLeaf sampleCrypto ⟨0,⟨1,[h 0]⟩,default,true⟩ = true := by decide +kernel
  exact ⟨hcontains,(containsLeaf_sound sampleCrypto acc R ⟨0,⟨1,[h 0]⟩,default,true⟩ hrep
    (injOn_of_nodup (by decide +kernel)) hcontains).2.2⟩

end QdayNode
