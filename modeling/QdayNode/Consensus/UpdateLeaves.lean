import QdayNode.Consensus.AddLeaves

/-!
# Updating leaves

`recompute` over a subtree returns its root for the new leaf hashes `g` and patches
the proof of every updated leaf below that root.  The leaves it is given still carry
sibling paths for the old hashes `f`; the two agree away from the updated leaves.
-/
namespace QdayNode
open ByteString Word64 MerkleForest Outcome

variable {l : ElementLeaf} {m k : ℕ}

variable {c : Crypto} {f g : ℕ → Hash256}

def patch (c : Crypto) (g : ℕ → Hash256) (h : ℕ) (l : ElementLeaf) : ElementLeaf :=
  l.withProof (siblings c.sumPair g l.leafIndex 0 h ++ l.merkleProof.drop h)

def setSibling (h : ℕ) (root : Hash256) (l : ElementLeaf) : ElementLeaf :=
  l.withProof (l.merkleProof.set h root)

/-- The proof of the leaf follows `f` on the rows below `h`. -/
def FollowsBelow (c : Crypto) (f : ℕ → Hash256) (h : ℕ) (l : ElementLeaf) : Prop :=
  l.merkleProof.take h = siblings c.sumPair f l.leafIndex 0 h

variable {h : ℕ} {recurse : List ElementLeaf → Outcome (Hash256 × List ElementLeaf)} {other out : List ElementLeaf}
  {fuel : ℕ} {half' other' : List ElementLeaf}

@[simp] theorem patch_leafIndex (h : ℕ) (l : ElementLeaf) : (patch c g h l).leafIndex = l.leafIndex := rfl

@[simp] theorem patch_merkleProof (h : ℕ) (l : ElementLeaf) :
    (patch c g h l).merkleProof = siblings c.sumPair g l.leafIndex 0 h ++ l.merkleProof.drop h := rfl

@[simp] theorem patch_hash (h : ℕ) (l : ElementLeaf) : (patch c g h l).hash c = l.hash c := rfl

@[simp] theorem setSibling_leafIndex (h : ℕ) (root : Hash256) (l : ElementLeaf) :
    (setSibling h root l).leafIndex = l.leafIndex := rfl

@[simp] theorem setSibling_merkleProof (h : ℕ) (root : Hash256) (l : ElementLeaf) :
    (setSibling h root l).merkleProof = l.merkleProof.set h root := rfl

@[simp] theorem setSibling_hash (h : ℕ) (root : Hash256) (l : ElementLeaf) :
    (setSibling h root l).hash c = l.hash c := rfl

theorem FollowsBelow.le_length (hl : FollowsBelow c f h l) :
    h ≤ l.merkleProof.length := by
  have := congrArg List.length hl
  simp only [List.length_take,length_siblings] at this
  omega

theorem FollowsBelow.mono (hl : FollowsBelow c f h l) (hm : m ≤ h) :
    FollowsBelow c f m l := by
  have := congrArg (List.take m) hl
  rwa [List.take_take,Nat.min_eq_left hm,take_siblings _ _ _ _ _ hm] at this

theorem FollowsBelow.getElem? (hl : FollowsBelow c f h l) (hm : m < h) :
    l.merkleProof[m]? = some (nodeAt c.sumPair f m (sib (l.leafIndex / 2^m))) := by
  have := congrArg (·[m]?) hl
  simp only [List.getElem?_take,hm,if_true] at this
  rw [this,getElem?_siblings _ _ _ _ _ hm,Nat.zero_add]

theorem FollowsBelow.setSibling (hl : FollowsBelow c f h l) (root : Hash256) :
    FollowsBelow c f h (setSibling h root l) := by
  have hset : (l.merkleProof.set h root).take h = l.merkleProof.take h :=
    List.take_set_of_le (le_refl h)
  exact hset.trans hl

/-- Setting the sibling on row `h` to the node of `g` and patching below it, in either order,
patches one row more. -/
theorem patch_setSibling {root : Hash256} (hlen : h < l.merkleProof.length)
    (hroot : root = nodeAt c.sumPair g h (sib (l.leafIndex / 2^h))) :
    patch c g h (setSibling h root l) = patch c g (h+1) l := by
  have hdrop : (l.merkleProof.set h root).drop h = root :: l.merkleProof.drop (h+1) := by
    rw [List.drop_set,if_neg (lt_irrefl h),Nat.sub_self,List.drop_eq_getElem_cons hlen,List.set_cons_zero]
  unfold patch
  rw [setSibling_merkleProof,setSibling_leafIndex,hdrop,siblings_snoc,Nat.zero_add,← hroot,
    List.append_assoc,List.singleton_append]
  rfl

theorem setSibling_patch {root : Hash256} (hlen : h < l.merkleProof.length)
    (hroot : root = nodeAt c.sumPair g h (sib (l.leafIndex / 2^h))) :
    setSibling h root (patch c g h l) = patch c g (h+1) l := by
  rw [← patch_setSibling hlen hroot]
  unfold setSibling patch
  rw [ElementLeaf.withProof_merkleProof,ElementLeaf.withProof_withProof,ElementLeaf.withProof_withProof,
    List.set_append_right _ _ (by simp)]
  simp [List.drop_set]

theorem setSibling_of_getElem? {root : Hash256}
    (hget : l.merkleProof[h]? = some root) : setSibling h root l = l := by
  obtain ⟨hlt,rfl⟩ := List.getElem?_eq_some_iff.mp hget
  unfold setSibling
  rw [List.set_getElem_self,ElementLeaf.withProof_self]

/-- One half of `recompute`: if the half holds updated leaves their root comes from the
recursion, otherwise it is already the sibling of every leaf in the other half. -/
theorem recomputeHalf_spec {half : List ElementLeaf} {root : Hash256}
    (hrec : half ≠ [] → recurse half = .ok (root, out)) (hnil : half = [] → out = [])
    (hlen : ∀ l ∈ other, h < l.merkleProof.length)
    (hempty : half = [] → other ≠ [] ∧ ∀ l ∈ other, l.merkleProof[h]? = some root) :
    recomputeHalf recurse (h+1) half other = .ok (root, out, other.map (setSibling h root)) := by
  by_cases hhalf : half = []
  · obtain ⟨hne,hget⟩ := hempty hhalf
    obtain ⟨l,ls,rfl⟩ := List.exists_cons_of_ne_nil hne
    have hsame : (l :: ls).map (setSibling h root) = l :: ls :=
      (List.map_congr_left fun l hl => setSibling_of_getElem? (hget l hl)).trans (List.map_id _)
    have hfirst : firstSibling (l :: ls) h = .ok root := by
      simp [firstSibling,hget l List.mem_cons_self]
    simp [recomputeHalf,hhalf,hfirst,hsame,hnil hhalf]
  · have hset : setSiblings other h root = .ok (other.map (setSibling h root)) := by
      have hno : ¬ ∃ l ∈ other, l.merkleProof.length ≤ h := by
        rintro ⟨l,hl,hle⟩
        have := hlen l hl
        omega
      simp only [setSiblings,crashIf,hno,if_false]
      rfl
    have hisEmpty : half.isEmpty = false := by simpa using hhalf
    simp only [recomputeHalf,hisEmpty,Bool.false_eq_true,if_false,hrec hhalf,ok_bind,
      Nat.add_sub_cancel,hset]
    rfl

/-- The updated leaves under the node at row `h`, column `col`. -/
structure UpdatedUnder (c : Crypto) (f g : ℕ → Hash256) (h col : ℕ) (leaves : List ElementLeaf) : Prop where
  sorted : leaves.Pairwise fun l m => l.leafIndex < m.leafIndex
  column : ∀ l ∈ leaves, l.leafIndex / 2^h = col
  follows : ∀ l ∈ leaves, FollowsBelow c f h l
  updated : ∀ l ∈ leaves, g l.leafIndex = l.hash c
  others : ∀ x, x / 2^h = col → (∀ l ∈ leaves, l.leafIndex ≠ x) → g x = f x

theorem UpdatedUnder.map_setSibling {col : ℕ} {leaves : List ElementLeaf}
    (u : UpdatedUnder c f g h col leaves) (root : Hash256) :
    UpdatedUnder c f g h col (leaves.map (setSibling h root)) where
  sorted := List.pairwise_map.mpr u.sorted
  column := List.forall_mem_map.mpr u.column
  follows := List.forall_mem_map.mpr fun l hl => (u.follows l hl).setSibling root
  updated := List.forall_mem_map.mpr u.updated
  others x hx hno := u.others x hx fun l hl => hno (setSibling h root l) (List.mem_map_of_mem hl)

theorem splitLeaves_eq_filter {ls : List ElementLeaf} (mid : ℕ)
    (hsorted : ls.Pairwise fun l m => l.leafIndex ≤ m.leafIndex) :
    splitLeaves ls mid = (ls.filter (·.leafIndex < mid), ls.filter (mid ≤ ·.leafIndex)) := by
  induction ls with
  | nil => rfl
  | cons l ls ih =>
    rw [List.pairwise_cons] at hsorted
    have hrest := ih hsorted.2
    simp only [splitLeaves,Prod.mk.injEq] at hrest ⊢
    by_cases hl : l.leafIndex < mid
    · have hnot : ¬ mid ≤ l.leafIndex := not_le.mpr hl
      simp [hl,hnot,hrest]
    · have hle : mid ≤ l.leafIndex := not_lt.mp hl
      have hall : ∀ m ∈ ls, mid ≤ m.leafIndex := fun m hm => hle.trans (hsorted.1 m hm)
      have hfilter : ls.filter (mid ≤ ·.leafIndex) = ls := List.filter_eq_self.mpr (by simpa using hall)
      simpa [hl,hle,hfilter] using hall

theorem splitLeaves_append (ls : List ElementLeaf) (mid : ℕ) :
    (splitLeaves ls mid).1 ++ (splitLeaves ls mid).2 = ls := List.takeWhile_append_dropWhile

theorem UpdatedUnder.half {col d : ℕ} {leaves : List ElementLeaf} {p : ElementLeaf → Bool}
    (u : UpdatedUnder c f g (h+1) col leaves) (hd : d / 2 = col)
    (hp : ∀ l ∈ leaves, p l = true ↔ l.leafIndex / 2^h = d) : UpdatedUnder c f g h d (leaves.filter p) where
  sorted := u.sorted.filter p
  column l hl := (hp l (List.mem_of_mem_filter hl)).mp (List.of_mem_filter hl)
  follows l hl := (u.follows l (List.mem_of_mem_filter hl)).mono (Nat.le_succ h)
  updated l hl := u.updated l (List.mem_of_mem_filter hl)
  others x hx hno := by
    refine u.others x (by rw [div_two_pow_succ,hx,hd]) fun l hl heq => ?_
    exact hno l (List.mem_filter.mpr ⟨hl,(hp l hl).mpr (by rw [heq,hx])⟩) heq

theorem UpdatedUnder.nodeAt_eq {col : ℕ} (u : UpdatedUnder c f g h col []) :
    nodeAt c.sumPair f h col = nodeAt c.sumPair g h col :=
  nodeAt_congr fun x hx => (u.others x hx (by simp)).symm

theorem recompute_height {col : ℕ} (hcap : (col+1) * 2^h ≤ 2^63) :
    trailingZeros64 (((col+1) * 2^h + 2^64 - col * 2^h) % 2^64) = h := by
  have hpow : 2^h ≤ 2^63 := (Nat.le_mul_of_pos_left _ (Nat.succ_pos col)).trans hcap
  have hh : h ≤ 63 := (Nat.pow_le_pow_iff_right (by omega)).mp hpow
  have hdiff : (col+1) * 2^h + 2^64 - col * 2^h = 2^h + 2^64 := by
    rw [Nat.add_mul]
    omega
  rw [hdiff,Nat.add_mod_right,Nat.mod_eq_of_lt (by omega)]
  exact trailingZeros64_two_pow (by omega)

theorem recompute_mid {col : ℕ} (hcap : (col+1) * 2^(h+1) ≤ 2^63) :
    (col * 2^(h+1) + (col+1) * 2^(h+1)) % 2^64 / 2 = (2*col+1) * 2^h := by
  have hpos := Nat.two_pow_pos h
  have hsum : col * 2^(h+1) + (col+1) * 2^(h+1) = (2*col+1) * 2^h * 2 := by
    rw [pow_succ]
    ring
  have hlt : (2*col+1) * 2^h * 2 < 2^64 := by
    rw [← hsum]
    have : col * 2^(h+1) < (col+1) * 2^(h+1) := Nat.mul_lt_mul_of_pos_right (by omega) (by positivity)
    omega
  rw [hsum,Nat.mod_eq_of_lt hlt,Nat.mul_div_cancel _ (by omega)]

/-- The two halves of `recompute`, given what the recursion returns on each. -/
theorem recompute_halves {col : ℕ} {left right : List ElementLeaf}
    {recL recR : List ElementLeaf → Outcome (Hash256 × List ElementLeaf)}
    (uL : UpdatedUnder c f g h (2*col) left) (uR : UpdatedUnder c f g h (2*col+1) right)
    (hne : left ++ right ≠ []) (hfollows : ∀ l ∈ left ++ right, FollowsBelow c f (h+1) l)
    (hrecL : left ≠ [] → recL left = .ok (nodeAt c.sumPair g h (2*col), left.map (patch c g h)))
    (hrecR : ∀ ls, ls ≠ [] → UpdatedUnder c f g h (2*col+1) ls →
      recR ls = .ok (nodeAt c.sumPair g h (2*col+1), ls.map (patch c g h))) :
    (do
      let (leftRoot, left, right) ← recomputeHalf recL (h+1) left right
      let (rightRoot, right, left) ← recomputeHalf recR (h+1) right left
      return (c.sumPair leftRoot rightRoot, left ++ right)) =
      .ok (nodeAt c.sumPair g (h+1) col, (left ++ right).map (patch c g (h+1))) := by
  rw [List.forall_mem_append] at hfollows
  obtain ⟨hfL,hfR⟩ := hfollows
  have hsibL : ∀ l ∈ left, sib (l.leafIndex / 2^h) = 2*col+1 := fun l hl => by
    rw [uL.column l hl,sib_left]
  have hsibR : ∀ l ∈ right, sib (l.leafIndex / 2^h) = 2*col := fun l hl => by
    rw [uR.column l hl,sib_right]
  set rootL := nodeAt c.sumPair g h (2*col) with hrootL
  set rootR := nodeAt c.sumPair g h (2*col+1) with hrootR
  have hleft : recomputeHalf recL (h+1) left right =
      .ok (rootL, left.map (patch c g h), right.map (setSibling h rootL)) := by
    refine recomputeHalf_spec hrecL (fun hnil => by rw [hnil,List.map_nil])
      (fun l hl => (hfR l hl).le_length) fun hnil => ?_
    subst hnil
    refine ⟨by simpa using hne,fun l hl => ?_⟩
    rw [(hfR l hl).getElem? (Nat.lt_succ_self h),hsibR l hl,uL.nodeAt_eq]
  have hright : recomputeHalf recR (h+1) (right.map (setSibling h rootL)) (left.map (patch c g h)) =
      .ok (rootR, (right.map (setSibling h rootL)).map (patch c g h),
        (left.map (patch c g h)).map (setSibling h rootR)) := by
    refine recomputeHalf_spec (fun hne => hrecR _ hne (uR.map_setSibling rootL))
      (fun hnil => by rw [hnil,List.map_nil]) (List.forall_mem_map.mpr fun l hl => ?_) fun hnil => ?_
    · have := (hfL l hl).le_length
      rw [patch_merkleProof,List.length_append,length_siblings,List.length_drop]
      omega
    · obtain rfl := List.map_eq_nil_iff.mp hnil
      refine ⟨by simpa using hne,List.forall_mem_map.mpr fun l hl => ?_⟩
      rw [patch_merkleProof,List.getElem?_append_right (by simp),length_siblings,Nat.sub_self,
        List.getElem?_drop,Nat.add_zero,(hfL l hl).getElem? (Nat.lt_succ_self h),hsibL l hl,uR.nodeAt_eq]
  simp only [hleft,hright,ok_bind]
  rw [List.map_append,List.map_map,List.map_map]
  have hL : left.map (setSibling h rootR ∘ patch c g h) = left.map (patch c g (h+1)) :=
    List.map_congr_left fun l hl => setSibling_patch (hfL l hl).le_length (by rw [hsibL l hl])
  have hR : right.map (patch c g h ∘ setSibling h rootL) = right.map (patch c g (h+1)) :=
    List.map_congr_left fun l hl => patch_setSibling (hfR l hl).le_length (by rw [hsibR l hl])
  rw [hL,hR]
  rfl

/-- `recompute` returns the new root of the subtree and the leaves with their new proofs. -/
theorem recompute_spec {col : ℕ} {leaves : List ElementLeaf} (hfuel : h < fuel)
    (hcap : (col+1) * 2^h ≤ 2^63) (hne : leaves ≠ []) (u : UpdatedUnder c f g h col leaves) :
    recompute c fuel (col * 2^h) ((col+1) * 2^h) leaves =
      .ok (nodeAt c.sumPair g h col, leaves.map (patch c g h)) := by
  induction fuel generalizing h col leaves with
  | zero => omega
  | succ fuel ih =>
    simp only [recompute,recompute_height hcap]
    cases h with
    | zero =>
      obtain ⟨l,ls,rfl⟩ := List.exists_cons_of_ne_nil hne
      cases ls with
      | nil =>
        have hcol := u.column l (by simp)
        rw [pow_zero,Nat.div_one] at hcol
        simp [nodeAt,← hcol,u.updated l (by simp),patch]
      | cons m ls =>
        have hl := u.column l (by simp)
        have hm := u.column m (by simp)
        have hlt := (List.pairwise_cons.mp u.sorted).1 m (by simp)
        rw [pow_zero,Nat.div_one] at hl hm
        omega
    | succ h =>
      have hstart : col * 2^(h+1) = 2*col * 2^h := by ring
      have hstop : (col+1) * 2^(h+1) = (2*col+1+1) * 2^h := by ring
      have hcapL : (2*col+1) * 2^h ≤ 2^63 := by
        have : (2*col+1) * 2^h ≤ (2*col+1+1) * 2^h := Nat.mul_le_mul_right _ (by omega)
        omega
      -- the column on row `h` tells the halves apart
      have hside := fun l hl => half_iff_of_col (u.column l hl)
      have hsorted : leaves.Pairwise fun l m => l.leafIndex ≤ m.leafIndex := u.sorted.imp le_of_lt
      have uL := u.half (d := 2*col) (p := fun l => l.leafIndex < (2*col+1) * 2^h) (by omega)
        fun l hl => by simpa using (hside l hl).1
      have uR := u.half (d := 2*col+1) (p := fun l => (2*col+1) * 2^h ≤ l.leafIndex) (by omega)
        fun l hl => by simpa using (hside l hl).2
      have hsplit := splitLeaves_append leaves ((2*col+1) * 2^h)
      rw [splitLeaves_eq_filter _ hsorted] at hsplit
      rw [if_neg (Nat.succ_ne_zero h),recompute_mid hcap,splitLeaves_eq_filter _ hsorted,hstart,hstop]
      have := recompute_halves uL uR (by rwa [hsplit]) (by rw [hsplit]; exact u.follows)
        (fun hL => ih (by omega) hcapL hL uL)
        (fun ls hR u' => ih (by omega) (hstop ▸ hcap) hR u')
      rw [hsplit] at this
      exact this

instance : Std.Total leafOrder := ⟨fun l m => by unfold leafOrder; omega⟩

instance : IsTrans ElementLeaf leafOrder := ⟨fun l m o => by unfold leafOrder; omega⟩

theorem mem_groupAt {leaves : List ElementLeaf} :
    l ∈ groupAt leaves k ↔ l ∈ leaves ∧ l.merkleProof.length = k := by
  simp [groupAt,List.mem_filter]

theorem groupAt_sorted {leaves : List ElementLeaf} (hdistinct : (leaves.map ElementLeaf.leafIndex).Nodup) (k : ℕ) :
    (groupAt leaves k).Pairwise fun l m => l.leafIndex < m.leafIndex := by
  have hperm := (List.perm_insertionSort leafOrder leaves).map ElementLeaf.leafIndex
  have hne : (leaves.insertionSort leafOrder).Pairwise fun l m => l.leafIndex ≠ m.leafIndex :=
    List.pairwise_map.mp (hperm.nodup_iff.mpr hdistinct)
  have hle := List.pairwise_insertionSort leafOrder leaves
  refine List.pairwise_filter.mpr ((hle.and hne).imp ?_)
  rintro l m ⟨hord,hdiff⟩ hl hm
  simp only [decide_eq_true_iff] at hl hm
  unfold leafOrder at hord
  omega

/-- A batch of updates with distinct positions and sibling paths for the old hashes `f` of a forest
of `n` leaves; `g` is `f` with the updated leaves put in. -/
structure ValidUpdates (c : Crypto) (f g : ℕ → Hash256) (n : ℕ) (updated : List ElementLeaf) : Prop where
  distinct : (updated.map ElementLeaf.leafIndex).Nodup
  path : ∀ l ∈ updated, ValidPath c.sumPair f n l.leafIndex l.merkleProof
  replaced : ∀ l ∈ updated, g l.leafIndex = l.hash c
  kept : ∀ x < n, (∀ l ∈ updated, l.leafIndex ≠ x) → g x = f x

def refreshed (c : Crypto) (g : ℕ → Hash256) (l : ElementLeaf) : ElementLeaf :=
  l.withProof (siblings c.sumPair g l.leafIndex 0 l.merkleProof.length)

@[simp] theorem length_refreshed (l : ElementLeaf) :
    (refreshed c g l).merkleProof.length = l.merkleProof.length := length_siblings _ _ _ _

variable {n : ℕ} {updated : List ElementLeaf}

theorem ValidUpdates.inTree (v : ValidUpdates c f g n updated) (hl : l ∈ updated) :
    InTree n l.merkleProof.length l.leafIndex := by
  obtain ⟨k,hk,hproof⟩ := v.path l hl
  rw [hproof,length_siblings]
  exact hk

theorem ValidUpdates.proof_eq (v : ValidUpdates c f g n updated) (hl : l ∈ updated) :
    l.merkleProof = siblings c.sumPair f l.leafIndex 0 l.merkleProof.length := by
  obtain ⟨k,hk,hproof⟩ := v.path l hl
  rw [hproof,length_siblings]

theorem ValidUpdates.underRoot (v : ValidUpdates c f g n updated) (hk : n / 2^k % 2 = 1) :
    UpdatedUnder c f g k (n / 2^k - 1) (groupAt updated k) where
  sorted := groupAt_sorted v.distinct k
  column l hl := by
    obtain ⟨hmem,rfl⟩ := mem_groupAt.mp hl
    exact (v.inTree hmem).col
  follows l hl := by
    obtain ⟨hmem,rfl⟩ := mem_groupAt.mp hl
    unfold FollowsBelow
    rw [List.take_length]
    exact v.proof_eq hmem
  updated l hl := v.replaced l (mem_groupAt.mp hl).1
  others x hx hno := v.kept x (inTree_of_col hk hx).lt fun l hl heq => by
    have hin : InTree n k l.leafIndex := inTree_of_col hk (by rw [heq,hx])
    exact hno l (mem_groupAt.mpr ⟨hl,(v.inTree hl).unique hin⟩) heq

/-- A tree that ends by position `2^63` is recomputed without overflow. -/
theorem ValidUpdates.updateTree_low (v : ValidUpdates c f g n updated) (hcap : n / 2^k * 2^k ≤ 2^63) :
    updateTree c updated k = .ok ((groupAt updated k).map (refreshed c g)) := by
  unfold QdayNode.updateTree
  cases hgroup : groupAt updated k with
  | nil => rfl
  | cons l ls =>
    have hl : l ∈ groupAt updated k := by simp [hgroup]
    obtain ⟨hmem,hlen⟩ := mem_groupAt.mp hl
    have hin := v.inTree hmem
    rw [hlen] at hin
    have hcol := hin.col_succ
    have hstart : clearBits l.leafIndex k = (n / 2^k - 1) * 2^k := by
      rw [clearBits,← hin.2,Nat.add_sub_cancel]
    have hstop : ((n / 2^k - 1) * 2^k + 2^k) % 2^64 = (n / 2^k - 1 + 1) * 2^k := by
      rw [Nat.add_mul,Nat.one_mul,Nat.mod_eq_of_lt]
      rw [← Nat.succ_mul,Nat.succ_eq_add_one,hcol]
      omega
    have hk : k < 65 := by
      have hpow : 2^k ≤ 2^63 := (Nat.le_mul_of_pos_left _ (hin.2 ▸ Nat.succ_pos _)).trans hcap
      have := (Nat.pow_le_pow_iff_right (by omega : 1 < 2)).mp hpow
      omega
    have hrec := recompute_spec hk (by rwa [hcol]) (by simp [hgroup]) (v.underRoot hin.1)
    rw [hgroup] at hrec
    simp only [hstart,hstop,hrec,ok_bind]
    have hpatch : (l :: ls).map (patch c g k) = (l :: ls).map (refreshed c g) := by
      refine List.map_congr_left fun m hm => ?_
      have hm' := (mem_groupAt.mp (hgroup ▸ hm)).2
      simp [patch,refreshed,← hm']
    rw [hpatch]
    rfl

theorem ValidUpdates.refreshed_of_single (v : ValidUpdates c f g n updated)
    (hgroup : groupAt updated k = [l]) : refreshed c g l = l := by
  obtain ⟨hmem,rfl⟩ := mem_groupAt.mp (hgroup ▸ List.mem_cons_self : l ∈ groupAt updated k)
  have hin := v.inTree hmem
  have hunder := v.underRoot hin.1
  rw [hgroup] at hunder
  have hsame : siblings c.sumPair g l.leafIndex 0 l.merkleProof.length =
      siblings c.sumPair f l.leafIndex 0 l.merkleProof.length := by
    refine siblings_congr rfl fun m _ hm x hx => hunder.others x ?_ ?_
    · rw [← hin.col]
      refine div_two_pow_eq_of_le (k := m+1) ?_ (by omega)
      rw [div_two_pow_succ,div_two_pow_succ,hx,sib_div_two]
    · intro l' hl' heq
      rw [List.mem_singleton] at hl'
      rw [← heq,hl'] at hx
      have := sib_div_two (l.leafIndex / 2^m)
      unfold sib at hx
      split_ifs at hx <;> omega
  rw [refreshed,hsame,← v.proof_eq hmem,ElementLeaf.withProof_self]

theorem recomputeHalf_nil
    {root : Hash256}
    (hok : recomputeHalf recurse h [] other = .ok (root, half', other')) : half' = [] ∧ other' = other := by
  simp only [recomputeHalf,List.isEmpty_nil,if_true,bind_eq_ok,pure_eq_ok,Prod.mk.injEq] at hok
  obtain ⟨_,-,-,rfl,rfl⟩ := hok
  exact ⟨rfl,rfl⟩

theorem recomputeHalf_other_nil
    {root : Hash256} {half : List ElementLeaf}
    (hok : recomputeHalf recurse h half [] = .ok (root, half', other')) :
    (∃ r, recurse half = .ok (r, half')) ∧ other' = [] := by
  unfold recomputeHalf at hok
  split_ifs at hok with hempty
  · simp [firstSibling] at hok
  · simp only [setSiblings,bind_eq_ok,pure_eq_ok,Prod.mk.injEq] at hok
    obtain ⟨⟨r,half''⟩,hrec,_,⟨_,-,rfl⟩,-,rfl,rfl⟩ := hok
    exact ⟨⟨r,hrec⟩,rfl⟩

/-- Beyond position `2^63` the midpoint overflows and every leaf falls into the right half: the
recursion either stops with a panic or was given a single leaf. -/
theorem recompute_far {i j : ℕ} {leaves : List ElementLeaf} {root : Hash256}
    (hfar : ∀ l ∈ leaves, 2^63 ≤ l.leafIndex) (hok : recompute c fuel i j leaves = .ok (root, out)) :
    ∃ l, leaves = [l] ∧ out = [l] := by
  induction fuel generalizing i j root out with
  | zero => simp [recompute] at hok
  | succ fuel ih =>
    simp only [recompute] at hok
    split_ifs at hok with hheight
    · split at hok
      · cases hok
      · cases hok
        exact ⟨_,rfl,rfl⟩
      · cases hok
    · have hmid : (i + j) % 2^64 / 2 < 2^63 := by omega
      generalize (i + j) % 2^64 / 2 = mid at hok hmid
      have hsplit : splitLeaves leaves mid = ([], leaves) := by
        cases leaves with
        | nil => rfl
        | cons l ls =>
          have hnot : ¬ l.leafIndex < mid := by
            have := hfar l List.mem_cons_self
            omega
          simp only [splitLeaves,List.takeWhile,List.dropWhile,hnot,decide_false]
      simp only [hsplit,bind_eq_ok] at hok
      obtain ⟨⟨_,left,right⟩,hleft,⟨_,right',left'⟩,hright,hout⟩ := hok
      obtain ⟨rfl,rfl⟩ := recomputeHalf_nil hleft
      obtain ⟨⟨r,hrec⟩,hnil⟩ := recomputeHalf_other_nil hright
      obtain ⟨l,hl,rfl⟩ := ih hrec
      rw [hnil,pure_eq_ok,Prod.mk.injEq] at hout
      exact ⟨l,hl,hout.2.symm⟩

/-- Whatever the size of the forest, a tree that is recomputed is recomputed right. -/
theorem ValidUpdates.updateTree_of_ok (v : ValidUpdates c f g n updated) (hn : n < 2^64) (hok : updateTree c updated k = .ok out) :
    out = (groupAt updated k).map (refreshed c g) := by
  by_cases hcap : n / 2^k * 2^k ≤ 2^63
  · exact (Except.ok.inj ((v.updateTree_low hcap).symm.trans hok)).symm
  · unfold QdayNode.updateTree at hok
    cases hgroup : groupAt updated k with
    | nil => simpa [hgroup] using hok.symm
    | cons l ls =>
      have hfar : ∀ m ∈ groupAt updated k, 2^63 ≤ m.leafIndex := by
        intro m hm
        obtain ⟨hmem,hlen⟩ := mem_groupAt.mp hm
        have hin := v.inTree hmem
        rw [hlen] at hin
        have hk : k ≤ 63 := Nat.le_of_lt_succ (hin.height_lt hn)
        have hpow : 2^(63-k) * 2^k = 2^63 := by rw [← pow_add,Nat.sub_add_cancel hk]
        have hlt : 2^(63-k) < n / 2^k := by
          refine lt_of_mul_lt_mul_right (a := 2^k) ?_ (Nat.zero_le _)
          omega
        have hcolumn : 2^(63-k) ≤ m.leafIndex / 2^k := by
          have := hin.2
          omega
        rw [← hpow]
        exact (Nat.mul_le_mul_right _ hcolumn).trans (Nat.div_mul_le_self _ _)
      rw [hgroup] at hfar
      simp only [hgroup,bind_eq_ok,pure_eq_ok] at hok
      obtain ⟨⟨root,group⟩,hrec,rfl⟩ := hok
      obtain ⟨m,hm,rfl⟩ := recompute_far hfar hrec
      rw [hm] at hgroup ⊢
      rw [List.map_singleton,v.refreshed_of_single hgroup]

theorem ValidUpdates.updateTrees_of_ok (v : ValidUpdates c f g n updated) (hn : n < 2^64) {heights : List ℕ}
    {out : List (List ElementLeaf)} (hok : updateTrees c updated heights = .ok out) :
    out = heights.map fun k => (groupAt updated k).map (refreshed c g) := by
  induction heights generalizing out with
  | nil => exact (Except.ok.inj hok).symm
  | cons k ks ih =>
    simp only [QdayNode.updateTrees,bind_eq_ok,pure_eq_ok] at hok
    obtain ⟨group,hgroup,groups,hgroups,rfl⟩ := hok
    rw [v.updateTree_of_ok hn hgroup,ih hgroups,List.map_cons]

theorem ValidUpdates.updateTrees (v : ValidUpdates c f g n updated) (hcap : n ≤ 2^63) (heights : List ℕ) :
    ∃ out, updateTrees c updated heights = .ok out := by
  induction heights with
  | nil => exact ⟨_,rfl⟩
  | cons k ks ih =>
    obtain ⟨out,hout⟩ := ih
    have htree := v.updateTree_low ((Nat.div_mul_le_self n (2^k)).trans hcap)
    exact ⟨_,by rw [QdayNode.updateTrees,htree,hout]; rfl⟩

def refreshedGroups (c : Crypto) (g : ℕ → Hash256) (updated : List ElementLeaf) : List (List ElementLeaf) :=
  (List.range 64).map fun k => (groupAt updated k).map (refreshed c g)

theorem ValidUpdates.length_lt (v : ValidUpdates c f g n updated) (hn : n < 2^64)
    (hl : l ∈ updated) : l.merkleProof.length < 64 := (v.inTree hl).height_lt hn

theorem ValidUpdates.updateLeaves_of_ok (v : ValidUpdates c f g n updated) (hn : n < 2^64)
    {out : List (List ElementLeaf)} (hok : updateLeaves c updated = .ok out) :
    out = refreshedGroups c g updated := by
  simp only [QdayNode.updateLeaves,bind_eq_ok] at hok
  obtain ⟨_,-,hok⟩ := hok
  exact v.updateTrees_of_ok hn hok

theorem ValidUpdates.updateLeaves (v : ValidUpdates c f g n updated) (hcap : n ≤ 2^63) :
    updateLeaves c updated = .ok (refreshedGroups c g updated) := by
  have hlen : ¬ ∃ l ∈ updated, 64 ≤ l.merkleProof.length := by
    rintro ⟨l,hl,hge⟩
    have := v.length_lt (by omega) hl
    omega
  obtain ⟨out,hout⟩ := v.updateTrees hcap (List.range 64)
  have hok : QdayNode.updateLeaves c updated = .ok out := by
    simp only [QdayNode.updateLeaves,crashIf,hlen,if_false,ok_bind,hout]
  rw [hok,v.updateLeaves_of_ok (by omega) hok]

/-- Replacing the roots of the updated trees gives the forest of the new hashes. -/
theorem ValidUpdates.holdsRoots (v : ValidUpdates c f g n updated) {trees : ℕ → Hash256} (hn : n < 2^64)
    (hroots : HoldsRoots c.sumPair f n trees) :
    HoldsRoots c.sumPair g n (replaceRoots c trees (refreshedGroups c g updated)) := by
  intro k hk
  have hlt : k < 64 := by
    have := Nat.ge_two_pow_of_testBit ((testBit_iff_div n k).mpr hk)
    by_contra hge
    have hpow : 2^64 ≤ 2^k := Nat.pow_le_pow_right (by omega) (by omega)
    omega
  have hunder := v.underRoot hk
  simp only [replaceRoots,refreshedGroups,List.getD_eq_getElem?_getD,List.getElem?_map,List.getElem?_range hlt,Option.map_some,
    Option.getD_some]
  cases hgroup : groupAt updated k with
  | nil =>
    rw [hgroup] at hunder
    rw [List.map_nil,hroots k hk,hunder.nodeAt_eq]
  | cons l ls =>
    obtain ⟨hmem,hlen⟩ := mem_groupAt.mp (hgroup ▸ List.mem_cons_self : l ∈ groupAt updated k)
    have hpath : ValidPath c.sumPair g n l.leafIndex (refreshed c g l).merkleProof :=
      ⟨_,v.inTree hmem,rfl⟩
    have hclimb := hpath.climb
    rw [v.replaced l hmem] at hclimb
    rw [List.map_cons]
    rwa [length_refreshed,hlen] at hclimb

end QdayNode
