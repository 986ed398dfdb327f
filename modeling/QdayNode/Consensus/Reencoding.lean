import QdayNode.Consensus.Multiproof

/-!
# What a multiproof decoder writes

Whatever hashes a stream supplies, the proofs that `expandMultiproof` writes agree with
one another as far as the recursions of `types/multiproof.go` look at them.  Any part of
the transactions that were decoded can therefore be written and read again, whether or
not the proofs are those of a forest, and also where the positions are so large that the
middle of a range overflows.
-/
namespace QdayNode
open ByteString Decoder Word64 MerkleForest
open Outcome hiding fail

variable {c : Crypto} {l m l' : ElementLeaf} {out : List ElementLeaf} {rest : List Hash256} {k : ℕ}

section Expanded

/-- What a leaf is apart from the hashes in its proof. -/
def ElementLeaf.shape (l : ElementLeaf) : ElementLeaf × ℕ := (l.withProof [], l.merkleProof.length)

theorem shape_eq (h : l.shape = m.shape) :
    l = m.withProof l.merkleProof ∧ l.merkleProof.length = m.merkleProof.length := by
  obtain ⟨hrest,hlen⟩ := Prod.mk.inj h
  refine ⟨?_,hlen⟩
  rw [← ElementLeaf.withProof_withProof m [] l.merkleProof,← hrest,ElementLeaf.withProof_withProof,
    ElementLeaf.withProof_self]

theorem leafIndex_of_shape (h : l.shape = m.shape) : l.leafIndex = m.leafIndex := by
  rw [(shape_eq h).1]
  rfl

variable {h i j : ℕ}

theorem exists_shape {leaves : List ElementLeaf} (h : out.map ElementLeaf.shape = leaves.map ElementLeaf.shape)
    (hl : l ∈ out) : ∃ m ∈ leaves, l.shape = m.shape := by
  have hmem := List.mem_map_of_mem (f := ElementLeaf.shape) hl
  rw [h] at hmem
  obtain ⟨m,hm,hshape⟩ := List.mem_map.mp hmem
  exact ⟨m,hm,hshape.symm⟩

theorem map_shape_setSibling (leaves : List ElementLeaf) (r : ℕ) (root : Hash256) :
    (leaves.map (setSibling r root)).map ElementLeaf.shape = leaves.map ElementLeaf.shape := by
  rw [List.map_map]
  refine List.map_congr_left fun l _ => ?_
  simp [ElementLeaf.shape,setSibling]

theorem setSiblings_inv {r : ℕ} {ls : List ElementLeaf} {root : Hash256} (h : setSiblings ls r root = .ok out) :
    out = ls.map (setSibling r root) ∧ ∀ l ∈ ls, r < l.merkleProof.length := by
  obtain ⟨hlen,hout⟩ := bind_unit_eq_ok.mp h
  refine ⟨(pure_eq_ok.mp hout).symm,fun l hl => ?_⟩
  by_contra hle
  exact crashIf_eq_ok.mp hlen ⟨l,hl,not_lt.mp hle⟩

def HashedAlike (c : Crypto) (h : ℕ) (leaves : List ElementLeaf) : Prop :=
  ∀ l ∈ leaves, ∀ m ∈ leaves, (∀ r < h, l.merkleProof[r]? = m.merkleProof[r]?) → l.hash c = m.hash c

theorem ProofsFit.raise {leaves : List ElementLeaf} {sibling root : Hash256}
    (hlen : ∀ l ∈ leaves, h < l.merkleProof.length)
    (hfit : HashedAlike c h leaves → ProofsFit c h i j leaves root)
    (halike : HashedAlike c (h+1) (leaves.map (setSibling h sibling))) :
    ProofsFit c h i j (leaves.map (setSibling h sibling)) root := by
  have hrows : ∀ l : ElementLeaf, ∀ r < h, (setSibling h sibling l).merkleProof[r]? = l.merkleProof[r]? := fun l r hr => by
    rw [setSibling_merkleProof,List.getElem?_set_ne (by omega)]
  refine (hfit fun l hl m hm hsame => ?_).mono (List.forall_mem_map.mpr fun l hl => ⟨l,hl,rfl,rfl,hrows l⟩)
  refine halike (setSibling h sibling l) (List.mem_map_of_mem hl) (setSibling h sibling m) (List.mem_map_of_mem hm) fun r hr => ?_
  rcases Nat.lt_succ_iff_lt_or_eq.mp hr with hlt | rfl
  · rw [hrows l r hlt,hrows m r hlt,hsame r hlt]
  · rw [setSibling_merkleProof,setSibling_merkleProof,List.getElem?_set_self (hlen l hl),
      List.getElem?_set_self (hlen m hm)]

/-- Whatever the expansion is given, the proofs it writes fit. -/
theorem expandVisit_fits {fuel : ℕ} {leaves : List ElementLeaf} {hashes : List Hash256} {root : Hash256}
    (v : SpansRows h i j) (hsorted : SortedLeaves leaves)
    (hrun : expandVisit c fuel i j leaves hashes = .ok (root, out, rest)) :
    out.map ElementLeaf.shape = leaves.map ElementLeaf.shape ∧ (HashedAlike c h out → ProofsFit c h i j out root) := by
  induction fuel generalizing h i j leaves out hashes rest root with
  | zero => cases hrun
  | succ fuel ih =>
    simp only [expandVisit,v.trailingZeros] at hrun
    cases leaves with
    | nil =>
      cases hashes with
      | nil => cases hrun
      | cons hash hashes =>
        cases hrun
        exact ⟨rfl,fun _ => proofsFit_nil h i j root⟩
    | cons first others =>
      cases h with
      | zero =>
        cases hrun
        refine ⟨rfl,fun halike l hl => ?_⟩
        exact halike l hl first List.mem_cons_self fun r hr => absurd hr (Nat.not_lt_zero r)
      | succ h =>
        obtain ⟨vL,vR⟩ := v.halves
        simp only [Nat.succ_ne_zero,if_false,Nat.add_sub_cancel,bind_eq_ok,pure_eq_ok,
          Prod.mk.injEq,Prod.exists] at hrun
        set mid := (i + j) % 2^64 / 2 with hmid
        rw [splitLeaves_eq_filter mid hsorted] at hrun
        dsimp only at hrun
        obtain ⟨leftRoot,left,hashes',hL,rightRoot,right,rest',hR,right',hsetR,left',hsetL,rfl,rfl,-⟩ :=
          hrun
        obtain ⟨rfl,hlenR⟩ := setSiblings_inv hsetR
        obtain ⟨rfl,hlenL⟩ := setSiblings_inv hsetL
        obtain ⟨hshapeL,hfitL⟩ := ih vL (hsorted.filter _) hL
        obtain ⟨hshapeR,hfitR⟩ := ih vR (hsorted.filter _) hR
        have hsideL : ∀ l ∈ left.map (setSibling h rightRoot), l.leafIndex < mid := by
          refine List.forall_mem_map.mpr fun l hl => ?_
          obtain ⟨m,hm,hshape⟩ := exists_shape hshapeL hl
          rw [setSibling_leafIndex,leafIndex_of_shape hshape]
          exact of_decide_eq_true (List.mem_filter.mp hm).2
        have hsideR : ∀ l ∈ right.map (setSibling h leftRoot), mid ≤ l.leafIndex := by
          refine List.forall_mem_map.mpr fun l hl => ?_
          obtain ⟨m,hm,hshape⟩ := exists_shape hshapeR hl
          rw [setSibling_leafIndex,leafIndex_of_shape hshape]
          exact of_decide_eq_true (List.mem_filter.mp hm).2
        refine ⟨?_,fun halike => ⟨leftRoot,rightRoot,fun _ => rfl,?_,?_,?_⟩⟩
        · have happend := splitLeaves_append (first :: others) mid
          rw [splitLeaves_eq_filter mid hsorted] at happend
          rw [← happend,List.map_append,map_shape_setSibling,map_shape_setSibling,hshapeL,hshapeR,List.map_append]
        · have hfilter : (left.map (setSibling h rightRoot) ++ right.map (setSibling h leftRoot)).filter
              (·.leafIndex < mid) = left.map (setSibling h rightRoot) := by
            rw [List.filter_append,List.filter_eq_self.mpr fun l hl => decide_eq_true (hsideL l hl),
              List.filter_eq_nil_iff.mpr fun l hl => by simpa using hsideR l hl,List.append_nil]
          rw [hfilter]
          exact .raise hlenL hfitL fun l hl m hm =>
            halike l (List.mem_append_left _ hl) m (List.mem_append_left _ hm)
        · have hfilter : (left.map (setSibling h rightRoot) ++ right.map (setSibling h leftRoot)).filter
              (mid ≤ ·.leafIndex) = right.map (setSibling h leftRoot) := by
            rw [List.filter_append,List.filter_eq_nil_iff.mpr fun l hl => by simpa using hsideL l hl,
              List.filter_eq_self.mpr fun l hl => decide_eq_true (hsideR l hl),List.nil_append]
          rw [hfilter]
          exact .raise hlenR hfitR fun l hl m hm =>
            halike l (List.mem_append_right _ hl) m (List.mem_append_right _ hm)
        · intro l hl
          rcases List.mem_append.mp hl with hl | hl
          · rw [if_pos (hsideL l hl)]
            obtain ⟨l,hleft,rfl⟩ := List.mem_map.mp hl
            exact List.getElem?_set_self (hlenL l hleft)
          · rw [if_neg (not_lt.mpr (hsideR l hl))]
            obtain ⟨l,hright,rfl⟩ := List.mem_map.mp hl
            exact List.getElem?_set_self (hlenR l hright)

end Expanded

section Decoded

variable {n : ℕ} {txns : List V2Transaction}

theorem nodup_leaves (txns : List V2Transaction) : ((forEachElementLeaf c txns).map ElementLeaf.ref).Nodup := by
  have hrefs : (((elementPlaces c).get txns).mapIdx fun i p => (⟨i,p.2,p.1,false⟩ : ElementLeaf)).map ElementLeaf.ref =
      List.range ((elementPlaces c).get txns).length := by
    apply List.ext_getElem
    · simp
    · intro i hi hi'
      simp
  refine List.Nodup.sublist (List.filter_sublist.map ElementLeaf.ref) ?_
  rw [hrefs]
  exact List.nodup_range

variable {txns' : List V2Transaction}

theorem leaf_unique (hl : l ∈ forEachElementLeaf c txns) (hm : m ∈ forEachElementLeaf c txns)
    (href : l.ref = m.ref) : l = m := List.inj_on_of_nodup_map (nodup_leaves txns) hl hm href

/-- What the expansion writes into the tree of height `k`. -/
structure TreeWritten (c : Crypto) (n : ℕ) (leaves : List ElementLeaf) (k : ℕ) (written : List ElementLeaf) : Prop where
  shapes : written.map ElementLeaf.shape = (treeLeaves leaves k).map ElementLeaf.shape
  fit : ∃ root, HashedAlike c k written → ProofsFit c k ((n / 2^k - 1) * 2^k) (n / 2^k * 2^k) written root

def Expanded (c : Crypto) (n : ℕ) (leaves : List ElementLeaf) (written : ℕ → List ElementLeaf) : Prop :=
  ∀ k < 64, TreeWritten c n leaves k (written k)

theorem InForest.expanded {leaves : List ElementLeaf} (v : InForest n leaves) {hashes : List Hash256}
    (hrun : forEachTree leaves (fun i j leaves (st : List Hash256 × List ElementLeaf) => do
        let (_, leaves, proof) ← expandVisit c 65 i j leaves st.1
        return (proof, st.2 ++ leaves)) (hashes, []) = .ok (rest, out)) :
    ∃ written, Expanded c n leaves written ∧ out = (List.range 64).flatMap written := by
  rw [v.forEachTree_eq] at hrun
  have hkept := foldlM_keeps
    (P := fun pre (st : List Hash256 × List ElementLeaf) => ∃ written : ℕ → List ElementLeaf,
      (∀ k ∈ pre, TreeWritten c n leaves k (written k)) ∧ st.2 = pre.flatMap written)
    (fun pre k post st st' hrange hpre hstep => by
      obtain ⟨written,heach,hall⟩ := hpre
      have hfresh : k ∉ pre := by
        have hnodup : (pre ++ k :: post).Nodup := hrange ▸ List.nodup_range
        exact fun hmem => List.disjoint_of_nodup_append hnodup hmem List.mem_cons_self
      -- the tree adds its leaves behind those of the trees before it
      have hadd : ∃ new, TreeWritten c n leaves k new ∧ st'.2 = st.2 ++ new := by
        by_cases hne : treeLeaves leaves k = []
        · rw [if_pos hne] at hstep
          cases hstep
          exact ⟨[],⟨by rw [hne],default,fun _ => proofsFit_nil _ _ _ _⟩,(List.append_nil _).symm⟩
        · rw [if_neg hne] at hstep
          obtain ⟨⟨root,new,rest⟩,hvisit,hst'⟩ := bind_eq_ok.mp hstep
          cases hst'
          obtain ⟨hshape,hfit⟩ := expandVisit_fits (v.spansRows hne) (sorted_treeLeaves leaves k) hvisit
          exact ⟨new,⟨hshape,root,hfit⟩,rfl⟩
      obtain ⟨new,hnew,hst'⟩ := hadd
      have hold : ∀ m ∈ pre, Function.update written k new m = written m := by
        intro m hm
        apply Function.update_of_ne
        rintro rfl
        exact hfresh hm
      refine ⟨Function.update written k new,fun m hm => ?_,?_⟩
      · rcases List.mem_append.mp hm with hm | hm
        · rw [hold m hm]
          exact heach m hm
        · rw [List.mem_singleton.mp hm,Function.update_self]
          exact hnew
      · rw [hst',hall,List.flatMap_append,List.flatMap_singleton,Function.update_self,List.flatMap_congr hold])
    hrun ⟨fun _ => [],fun k hk => absurd hk List.not_mem_nil,rfl⟩
  obtain ⟨written,heach,hall⟩ := hkept
  exact ⟨written,fun k hk => heach k (List.mem_range.mpr hk),hall⟩

section Written

variable {written : ℕ → List ElementLeaf}

theorem Expanded.source {leaves : List ElementLeaf} (e : Expanded c n leaves written) (hk : k < 64)
    (hl : l ∈ written k) : ∃ m ∈ leaves, l.shape = m.shape ∧ l.merkleProof.length = k := by
  obtain ⟨m,hm,hshape⟩ := exists_shape (e k hk).shapes hl
  obtain ⟨hmem,hlen⟩ := mem_treeLeaves.mp hm
  exact ⟨m,hmem,hshape,(shape_eq hshape).2.trans hlen⟩

theorem Expanded.unique (e : Expanded c n (forEachElementLeaf c txns) written) {k' : ℕ} (hk : k < 64) (hk' : k' < 64)
    (hl : l ∈ written k) (hl' : l' ∈ written k') (href : l.ref = l'.ref) : l = l' := by
  have href_shape : ∀ l m : ElementLeaf, l.shape = m.shape → l.ref = m.ref := fun l m h => by
    rw [(shape_eq h).1]
    rfl
  obtain ⟨m,hm,hshape,hlen⟩ := e.source hk hl
  obtain ⟨m',hm',hshape',hlen'⟩ := e.source hk' hl'
  have hsame : m = m' := leaf_unique hm hm' (by rw [← href_shape l m hshape,href,href_shape l' m' hshape'])
  have hheight : k = k' := by
    rw [← hlen,← hlen',(shape_eq hshape).2,(shape_eq hshape').2,hsame]
  subst hheight
  have hrefs : (written k).map ElementLeaf.ref = (treeLeaves (forEachElementLeaf c txns) k).map ElementLeaf.ref := by
    have hfst := congrArg (List.map fun s : ElementLeaf × ℕ => s.1.ref) (e k hk).shapes
    rwa [List.map_map,List.map_map] at hfst
  have hnodup : ((treeLeaves (forEachElementLeaf c txns) k).map ElementLeaf.ref).Nodup := by
    rw [treeLeaves,((List.perm_insertionSort _ _).map ElementLeaf.ref).nodup_iff]
    exact (nodup_leaves txns).sublist (List.filter_sublist.map ElementLeaf.ref)
  rw [← hrefs] at hnodup
  exact List.inj_on_of_nodup_map hnodup hl hl' href

/-- The elements of the transactions are those that were written. -/
theorem Expanded.mem_iff (v : InForest n (forEachElementLeaf c txns)) (e : Expanded c n (forEachElementLeaf c txns) written)
    {out : List V2Transaction}
    (hout : out = (elementPlaces c).update (BlockDiffs.readBack ((List.range 64).flatMap written)) 0 txns)
    : l ∈ forEachElementLeaf c out ↔ ∃ k < 64, l ∈ written k := by
  have hmem : ∀ l, l ∈ (List.range 64).flatMap written ↔ ∃ k < 64, l ∈ written k := by simp
  have hplace : ∀ i, ((elementPlaces c).get out)[i]? = (((elementPlaces c).get txns)[i]?).map fun p =>
      (p.1, BlockDiffs.readBack ((List.range 64).flatMap written) i p.2) := by
    intro i
    rw [hout,(elementPlaces c).get_update,Places.rewrite,List.getElem?_mapIdx]
    simp only [Nat.zero_add]
  have hback : ∀ l, (∃ k < 64, l ∈ written k) → l ∈ forEachElementLeaf c out := by
    rintro l ⟨k,hk,hl⟩
    obtain ⟨m,hm,hshape,-⟩ := e.source hk hl
    obtain ⟨p,hp,hsource,hassigned⟩ := mem_forEachElementLeaf.mp hm
    have hlm := (shape_eq hshape).1
    have href : l.ref = m.ref := by
      rw [hlm]
      rfl
    have hread : BlockDiffs.readBack ((List.range 64).flatMap written) m.ref p.2 = l.stateElement := by
      refine readBack_of_forall ⟨l,(hmem l).mpr ⟨k,hk,hl⟩,href⟩ fun l' hl' href' => ?_
      obtain ⟨k',hk',hl'⟩ := (hmem l').mp hl'
      rw [e.unique hk' hk hl' hl (href'.trans href.symm)]
    refine mem_forEachElementLeaf.mpr ⟨(p.1, l.stateElement),?_,?_,?_⟩
    · rw [hplace,href,hp,Option.map_some,hread]
    · rw [hlm,hsource]
      rfl
    · rw [hlm,hsource]
      exact hassigned
  refine ⟨fun hl => ?_,hback l⟩
  obtain ⟨q,hq,hsource,hassigned⟩ := mem_forEachElementLeaf.mp hl
  rw [hplace] at hq
  obtain ⟨p,hp,rfl⟩ := Option.map_eq_some_iff.mp hq
  have hbefore : p.2.leafIndex ≠ unassignedLeafIndex := by
    intro hephemeral
    apply hassigned
    rw [readBack_of_not_mem fun l' hl' href => ?_]
    · exact hephemeral
    · obtain ⟨k,hk,hl'⟩ := (hmem l').mp hl'
      obtain ⟨m,hm,hshape,-⟩ := e.source hk hl'
      obtain ⟨p',hp',-,hassigned'⟩ := mem_forEachElementLeaf.mp hm
      have hsame : m.ref = l.ref := by
        rw [← href,(shape_eq hshape).1]
        rfl
      rw [hsame,hp] at hp'
      obtain rfl := Option.some.inj hp'
      exact hassigned' hephemeral
  have hleaf : (⟨l.ref,p.2,p.1,false⟩ : ElementLeaf) ∈ forEachElementLeaf c txns :=
    mem_forEachElementLeaf.mpr ⟨p,hp,rfl,hbefore⟩
  have hk := v.height_lt hleaf
  obtain ⟨l',hl',hshape⟩ := exists_shape (e _ hk).shapes.symm (mem_treeLeaves.mpr ⟨hleaf,rfl⟩)
  have href : l'.ref = l.ref := by
    rw [(shape_eq hshape.symm).1]
    rfl
  obtain rfl := leaf_unique (hback l' ⟨_,hk,hl'⟩) hl href
  exact ⟨_,hk,hl'⟩

end Written

theorem inForest_sizeProofs {numLeaves : UInt64}
    (hindex : ∀ l ∈ forEachElementLeaf c txns, l.stateElement.leafIndex < numLeaves) :
    InForest numLeaves.toNat (forEachElementLeaf c (sizeProofs c numLeaves txns)) := by
  refine ⟨numLeaves.toNat_lt,?_⟩
  rw [leaves_sizeProofs]
  refine List.forall_mem_map.mpr fun l hl => ?_
  obtain ⟨k,hin⟩ := exists_inTree (UInt64.lt_iff_toNat_lt.mp (hindex l hl))
  have hheight := hin.mergeHeight
  rw [mergeHeight_comm] at hheight
  rw [ElementLeaf.withProof_leafIndex,ElementLeaf.withProof_merkleProof,List.length_replicate]
  change InTree _ (mergeHeight l.stateElement.leafIndex.toNat numLeaves.toNat - 1) _
  rw [hheight]
  exact hin

/-- The proofs that the decoder wrote fit together, if leaves with one proof have one hash. -/
theorem decodeMultiproof_consistent {stream rest : Bytes} (hrun : (decodeMultiproof c).run stream = .ok (txns, rest))
    (halike : ∀ l ∈ forEachElementLeaf c txns, ∀ m ∈ forEachElementLeaf c txns, l.merkleProof = m.merkleProof →
      l.hash c = m.hash c) : ∃ n, Consistent c n (forEachElementLeaf c txns) := by
  simp only [decodeMultiproof,run_bind,bind_eq_ok,Prod.exists] at hrun
  obtain ⟨txns₀,s₁,-,numLeaves,s₂,-,hrun⟩ := hrun
  split_ifs at hrun with hindex
  · cases hrun
  · simp only [run_bind,bind_eq_ok,Prod.exists] at hrun
    obtain ⟨size,s₃,-,hashes,s₄,-,hrun⟩ := hrun
    obtain ⟨out,hexpand,heq⟩ := map_eq_ok.mp hrun
    obtain ⟨rfl,-⟩ := Prod.mk.inj heq
    set n := numLeaves.toNat with hn
    have hroom : InForest n (forEachElementLeaf c (sizeProofs c numLeaves txns₀)) := inForest_sizeProofs fun l hl =>
      UInt64.not_le.mp fun hle => hindex ⟨l,hl,hle⟩
    obtain ⟨⟨left,written⟩,htrees,hout⟩ := bind_eq_ok.mp hexpand
    obtain ⟨written,e,rfl⟩ := hroom.expanded htrees
    have hmem := fun l => e.mem_iff hroom (pure_eq_ok.mp hout).symm (l := l)
    refine ⟨n,⟨hroom.bound,fun l hl => ?_⟩,fun k => ?_⟩
    · obtain ⟨k,hk,hl⟩ := (hmem l).mp hl
      obtain ⟨m,hm,hshape,-⟩ := e.source hk hl
      rw [leafIndex_of_shape hshape,(shape_eq hshape).2]
      exact hroom.inTree m hm
    · by_cases hk : k < 64
      · obtain ⟨root,hfit⟩ := (e k hk).fit
        refine ⟨root,(hfit fun l hl m hm hrows => ?_).mono fun l hl => ?_⟩
        · obtain ⟨-,-,-,hlen⟩ := e.source hk hl
          obtain ⟨-,-,-,hlen'⟩ := e.source hk hm
          refine halike l ((hmem l).mpr ⟨k,hk,hl⟩) m ((hmem m).mpr ⟨k,hk,hm⟩) (List.ext_getElem? fun r => ?_)
          by_cases hr : r < k
          · exact hrows r hr
          · rw [List.getElem?_eq_none (by omega),List.getElem?_eq_none (by omega)]
        · obtain ⟨hl,hlen⟩ := mem_treeLeaves.mp hl
          obtain ⟨k',hk',hwritten⟩ := (hmem l).mp hl
          obtain ⟨-,-,-,hlen'⟩ := e.source hk' hwritten
          obtain rfl := hlen'.symm.trans hlen
          exact ⟨l,hwritten,rfl,rfl,fun _ _ => rfl⟩
      · have hnone : treeLeaves (forEachElementLeaf c out) k = [] := by
          refine List.eq_nil_iff_forall_not_mem.mpr fun l hl => hk ?_
          obtain ⟨hl,hlen⟩ := mem_treeLeaves.mp hl
          obtain ⟨k',hk',hl⟩ := (hmem l).mp hl
          obtain ⟨-,-,-,hlen'⟩ := e.source hk' hl
          exact hlen ▸ hlen' ▸ hk'
        rw [hnone]
        exact ⟨default,proofsFit_nil _ _ _ _⟩

theorem exists_leaf_of_subset (h : ∀ txn ∈ txns', txn ∈ txns)
    (hl' : l' ∈ forEachElementLeaf c txns') : ∃ l ∈ forEachElementLeaf c txns, l = { l' with ref := l.ref } := by
  obtain ⟨p,hp,hsource,hassigned⟩ := mem_forEachElementLeaf.mp hl'
  obtain ⟨txn,htxn,hplace⟩ := List.mem_flatMap.mp (List.mem_of_getElem? hp)
  have hmem : p ∈ (elementPlaces c).get txns := List.mem_flatMap.mpr ⟨txn,h txn htxn,hplace⟩
  obtain ⟨i,hi,hget⟩ := List.mem_iff_getElem.mp hmem
  refine ⟨⟨i,p.2,p.1,false⟩,mem_forEachElementLeaf.mpr ⟨p,?_,rfl,hassigned⟩,?_⟩
  · rw [List.getElem?_eq_getElem hi,hget]
  · rw [hsource]

theorem Consistent.subset (v : Consistent c n (forEachElementLeaf c txns))
    (h : ∀ txn ∈ txns', txn ∈ txns) : Consistent c n (forEachElementLeaf c txns') := by
  refine v.mono fun l' hl' => ?_
  obtain ⟨l,hl,hsame⟩ := exists_leaf_of_subset h hl'
  refine ⟨l,hl,?_,?_,?_⟩ <;> rw [hsame] <;> rfl

theorem hash_of_containsLeaf {acc : ElementAccumulator} {S : Set Bytes}
    (hinj : Set.InjOn c.sum256 S) (hS : ∀ x ∈ proofMessages c l, x ∈ S) (hS' : ∀ x ∈ proofMessages c m, x ∈ S)
    (hl : acc.containsLeaf c l = true) (hm : acc.containsLeaf c m = true) (hproof : l.merkleProof = m.merkleProof) :
    l.hash c = m.hash c := by
  simp only [ElementAccumulator.containsLeaf,Bool.and_eq_true,decide_eq_true_iff] at hl hm
  have hpairs : ∀ l : ElementLeaf, (∀ x ∈ proofMessages c l, x ∈ S) →
      ∀ x ∈ climbPairs c.sumPair l.leafIndex 0 (l.hash c) l.merkleProof, x ∈ Set.preimage nodePreimage S :=
    fun l hS x hx => hS _ (List.mem_cons_of_mem _ (List.mem_map_of_mem hx))
  have hroot : l.proofRoot c = m.proofRoot c := by rw [← hl.2,← hm.2,hproof]
  have hclimb := hpairs l hS
  rw [ElementLeaf.proofRoot,ElementLeaf.proofRoot,QdayNode.proofRoot,QdayNode.proofRoot,hproof] at hroot
  rw [hproof] at hclimb
  exact climb_cancel (sumPair_injOn hinj) hclimb (hpairs m hS') hroot

end Decoded

end QdayNode
