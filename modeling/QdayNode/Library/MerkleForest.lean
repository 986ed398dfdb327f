import Mathlib

/-!
# Perfect Merkle forests over an arbitrary hash

A forest of `n` leaves holds one perfect tree for every set bit of `n`, the
largest first.  Nodes are named by row and column: row `0` is the leaves, and the
node at row `k`, column `c` covers the leaves `c * 2^k, …, (c+1) * 2^k - 1`.
Leaves are given by a function on all positions; a node depends only on the
leaves it covers, so what lies beyond the forest is irrelevant.
-/
namespace MerkleForest

variable {k m c n i j n' lo r : ℕ}

variable {H : Type*} (node : H → H → H)

/-- The node at a row and column of the tree over the leaf hashes `f`. -/
def nodeAt (f : ℕ → H) : ℕ → ℕ → H
  | 0, c => f c
  | k+1, c => node (nodeAt f k (2*c)) (nodeAt f k (2*c+1))

/-- The other child of the parent of column `c`. -/
def sib (c : ℕ) : ℕ := if c % 2 = 0 then c + 1 else c - 1

/-- The siblings met on rows `lo, …, lo+len-1` when climbing from leaf `i`. -/
def siblings (f : ℕ → H) (i lo len : ℕ) : List H :=
  (List.range' lo len).map fun j => nodeAt node f j (sib (i / 2^j))

/-- Folds a proof into the hash that starts on row `r`, steered by the bits of `i`. -/
def climb (i : ℕ) : ℕ → H → List H → H
  | _, h, [] => h
  | r, h, s :: rest => climb i (r+1) (if i.testBit r then node s h else node h s) rest

/-- Leaf `i` lies in the tree of height `k` of the forest of `n` leaves. -/
def InTree (n k i : ℕ) : Prop := n / 2^k % 2 = 1 ∧ i / 2^k + 1 = n / 2^k

/-- `p` is the sibling path of position `i` in the forest of `n` leaves. -/
def ValidPath (f : ℕ → H) (n i : ℕ) (p : List H) : Prop :=
  ∃ k, InTree n k i ∧ p = siblings node f i 0 k

/-- `p` holds the siblings of position `i` from row `lo` up to the root of its tree. -/
def PathFrom (f : ℕ → H) (n i lo : ℕ) (p : List H) : Prop :=
  ∃ len, p = siblings node f i lo len ∧ InTree n (lo+len) i

/-- While leaf `n` is added and its subtree has been merged up to row `k`: a position in that
subtree has its siblings up to row `k`, any other position those of the forest of `n` leaves. -/
def MergingPath (f : ℕ → H) (n k i lo : ℕ) (p : List H) : Prop :=
  ∃ len, p = siblings node f i lo len ∧
    ((i / 2^k = n / 2^k ∧ lo + len = k) ∨ (i / 2^k ≠ n / 2^k ∧ InTree n (lo+len) i))

/-- `trees` holds the root of every perfect tree of the forest of `n` leaves. -/
def HoldsRoots (f : ℕ → H) (n : ℕ) (trees : ℕ → H) : Prop :=
  ∀ k, n / 2^k % 2 = 1 → trees k = nodeAt node f k (n / 2^k - 1)

section Arithmetic

theorem div_two_pow_succ (n k : ℕ) : n / 2^(k+1) = n / 2^k / 2 := by
  rw [pow_succ,Nat.div_div_eq_div_mul]

variable {x y k' : ℕ}

theorem div_two_pow_eq_of_le (h : x / 2^k = y / 2^k) (hkm : k ≤ m) :
    x / 2^m = y / 2^m := by
  obtain ⟨d,rfl⟩ := Nat.exists_eq_add_of_le hkm
  rw [pow_add,← Nat.div_div_eq_div_mul,← Nat.div_div_eq_div_mul,h]

theorem testBit_iff_div (n k : ℕ) : n.testBit k = true ↔ n / 2^k % 2 = 1 := by
  rw [Nat.testBit_eq_decide_div_mod_eq,decide_eq_true_iff]

theorem half_iff_of_col {h col : ℕ} (hcol : x / 2^(h+1) = col) :
    (x < (2*col+1) * 2^h ↔ x / 2^h = 2*col) ∧ ((2*col+1) * 2^h ≤ x ↔ x / 2^h = 2*col+1) := by
  have hpos := Nat.two_pow_pos h
  rw [div_two_pow_succ] at hcol
  rw [← Nat.div_lt_iff_lt_mul hpos,← Nat.le_div_iff_mul_le hpos]
  omega

theorem sib_of_odd (h : c % 2 = 1) : sib c = 2 * (c / 2) := by
  unfold sib
  split_ifs <;> omega

theorem sib_of_even (h : ¬ c % 2 = 1) : sib c = 2 * (c / 2) + 1 := by
  unfold sib
  split_ifs <;> omega

theorem sib_left (c : ℕ) : sib (2*c) = 2*c+1 := by
  rw [sib,if_pos (by omega)]

theorem sib_right (c : ℕ) : sib (2*c+1) = 2*c := by
  rw [sib,if_neg (by omega),Nat.add_sub_cancel]

theorem sib_div_two (c : ℕ) : sib c / 2 = c / 2 := by
  unfold sib
  split_ifs <;> omega

theorem eq_sib_of_div_two {d : ℕ} (h : c / 2 = d / 2) (hne : c ≠ d) : d = sib c := by
  unfold sib
  split_ifs <;> omega

def bitLen (x : ℕ) : ℕ := if x = 0 then 0 else Nat.log2 x + 1

theorem bitLen_le_iff (x k : ℕ) : bitLen x ≤ k ↔ x < 2^k := by
  unfold bitLen
  split_ifs with h
  · subst h
    simp
  · rw [Nat.succ_le_iff,Nat.log2_lt h]

/-- The number of low bits in which `x` and `y` can differ. -/
def mergeHeight (x y : ℕ) : ℕ := bitLen (x ^^^ y)

theorem mergeHeight_le_iff (x y k : ℕ) : mergeHeight x y ≤ k ↔ x / 2^k = y / 2^k := by
  rw [mergeHeight,bitLen_le_iff,← Nat.div_eq_zero_iff_lt (by positivity),← Nat.shiftRight_eq_div_pow,
    Nat.shiftRight_xor_distrib,← Nat.shiftRight_eq_div_pow,← Nat.shiftRight_eq_div_pow,
    Nat.xor_eq_zero_iff]

theorem mergeHeight_comm (x y : ℕ) : mergeHeight x y = mergeHeight y x := by
  rw [mergeHeight,mergeHeight,Nat.xor_comm]

theorem mergeHeight_eq_zero_iff (x y : ℕ) : mergeHeight x y = 0 ↔ x = y := by
  rw [← Nat.le_zero,mergeHeight_le_iff]
  simp

theorem mergeHeight_sib (h : mergeHeight x y = k + 1) : x / 2^k = sib (y / 2^k) := by
  have hup : x / 2^(k+1) = y / 2^(k+1) := (mergeHeight_le_iff x y (k+1)).mp h.le
  have hne : x / 2^k ≠ y / 2^k := fun he => by
    have := (mergeHeight_le_iff x y k).mpr he
    omega
  rw [div_two_pow_succ,div_two_pow_succ] at hup
  exact eq_sib_of_div_two hup.symm (Ne.symm hne)

theorem inTree_of_col (hodd : n / 2^k % 2 = 1) (hcol : i / 2^k = n / 2^k - 1) :
    InTree n k i := by
  refine ⟨hodd,?_⟩
  generalize n / 2^k = c at *
  omega

theorem InTree.col (h : InTree n k i) : i / 2^k = n / 2^k - 1 := Nat.eq_sub_of_add_eq h.2

theorem InTree.col_succ (h : InTree n k i) : n / 2^k - 1 + 1 = n / 2^k := by
  rw [← h.col,h.2]

theorem InTree.lt (h : InTree n k i) : i < n := by
  by_contra hle
  have := Nat.div_le_div_right (c := 2^k) (not_lt.mp hle)
  have := h.2
  omega

theorem InTree.height_lt {w : ℕ} (h : InTree n k i) (hn : n < 2^w) : k < w := by
  have hge := Nat.ge_two_pow_of_testBit ((testBit_iff_div n k).mpr h.1)
  exact (Nat.pow_lt_pow_iff_right (by omega : 1 < 2)).mp (hge.trans_lt hn)

theorem InTree.div_succ (h : InTree n k i) : i / 2^(k+1) = n / 2^(k+1) := by
  obtain ⟨hodd,hcol⟩ := h
  rw [div_two_pow_succ,div_two_pow_succ]
  omega

theorem exists_inTree (h : i < n) : ∃ k, InTree n k i := by
  induction n using Nat.strong_induction_on generalizing i with
  | _ n ih =>
    by_cases hhalf : i / 2 = n / 2
    · exact ⟨0,by simp; omega,by simp; omega⟩
    · obtain ⟨k,hodd,hcol⟩ := ih (n / 2) (by omega) (i := i / 2) (by omega)
      refine ⟨k+1,?_,?_⟩
      · rwa [pow_succ',← Nat.div_div_eq_div_mul]
      · rwa [pow_succ',← Nat.div_div_eq_div_mul,← Nat.div_div_eq_div_mul]

theorem InTree.mergeHeight (h : InTree n k i) : mergeHeight n i = k + 1 := by
  have hle : MerkleForest.mergeHeight n i ≤ k + 1 := (mergeHeight_le_iff _ _ _).mpr h.div_succ.symm
  have hnot : ¬ MerkleForest.mergeHeight n i ≤ k := fun hk => by
    have := (mergeHeight_le_iff _ _ _).mp hk
    have := h.2
    omega
  omega

theorem InTree.height_le (hin : InTree n k i) (hin' : InTree n' k' i) (hle : n ≤ n') :
    k ≤ k' := by
  have hmerge := hin'.mergeHeight
  by_contra hlt
  have hcol := (mergeHeight_le_iff n' i k).mp (by omega)
  have := Nat.div_le_div_right (c := 2^k) hle
  have := hin.2
  omega

theorem InTree.unique (h : InTree n k i) (h' : InTree n k' i) : k = k' := by
  have := h.mergeHeight
  have := h'.mergeHeight
  omega

theorem InTree.of_div_eq (h : InTree n k i) (hij : i / 2^m = j / 2^m) (hm : m ≤ k) :
    InTree n k j :=
  ⟨h.1,by rw [← div_two_pow_eq_of_le hij hm]; exact h.2⟩

theorem InTree.div_eq (h : InTree n k i) (h' : InTree n k j) : i / 2^k = j / 2^k := by
  have := h.2
  have := h'.2
  omega

end Arithmetic

section Nodes

variable {node}

variable {f g : ℕ → H} {p : List H}

theorem nodeAt_congr
    (h : ∀ i, i / 2^k = c → f i = g i) : nodeAt node f k c = nodeAt node g k c := by
  induction k generalizing c with
  | zero => exact h c (by simp)
  | succ k ih =>
    rw [nodeAt,nodeAt,ih,ih] <;>
    · intro i hi
      exact h i (by rw [div_two_pow_succ]; omega)

theorem join_sib (f : ℕ → H) (k c : ℕ) :
    (if c % 2 = 1 then node (nodeAt node f k (sib c)) (nodeAt node f k c)
      else node (nodeAt node f k c) (nodeAt node f k (sib c))) = nodeAt node f (k+1) (c / 2) := by
  rw [nodeAt]
  split_ifs with h
  · have hc : 2 * (c / 2) + 1 = c := by omega
    rw [sib_of_odd h,hc]
  · have hc : 2 * (c / 2) = c := by omega
    rw [sib_of_even h,hc]

@[simp] theorem length_siblings (f : ℕ → H) (i lo len : ℕ) :
    (siblings node f i lo len).length = len := by
  simp [siblings]

@[simp] theorem siblings_zero (f : ℕ → H) (i lo : ℕ) : siblings node f i lo 0 = [] := rfl

theorem siblings_succ (f : ℕ → H) (i lo len : ℕ) :
    siblings node f i lo (len+1) =
      nodeAt node f lo (sib (i / 2^lo)) :: siblings node f i (lo+1) len := by
  simp [siblings,List.range'_succ]

theorem siblings_add (f : ℕ → H) (i lo a b : ℕ) :
    siblings node f i lo (a+b) = siblings node f i lo a ++ siblings node f i (lo+a) b := by
  simp only [siblings,← List.map_append]
  rw [List.range'_append_1]

theorem siblings_snoc (f : ℕ → H) (i lo len : ℕ) :
    siblings node f i lo (len+1) =
      siblings node f i lo len ++ [nodeAt node f (lo+len) (sib (i / 2^(lo+len)))] := by
  rw [siblings_add]
  rfl

theorem getElem?_siblings (f : ℕ → H) (i lo len j : ℕ) (hj : j < len) :
    (siblings node f i lo len)[j]? = some (nodeAt node f (lo+j) (sib (i / 2^(lo+j)))) := by
  simp [siblings,hj]

theorem take_siblings (f : ℕ → H) (i lo len m : ℕ) (hm : m ≤ len) :
    (siblings node f i lo len).take m = siblings node f i lo m := by
  obtain ⟨d,rfl⟩ := Nat.exists_eq_add_of_le hm
  rw [siblings_add,List.take_left' (by simp)]

theorem drop_siblings (f : ℕ → H) (i lo len m : ℕ) (hm : m ≤ len) :
    (siblings node f i lo len).drop m = siblings node f i (lo+m) (len-m) := by
  obtain ⟨d,rfl⟩ := Nat.exists_eq_add_of_le hm
  rw [siblings_add,List.drop_left' (by simp)]
  simp

theorem siblings_congr {len : ℕ} (hij : i / 2^lo = j / 2^lo)
    (h : ∀ m, lo ≤ m → m < lo + len → ∀ x, x / 2^m = sib (i / 2^m) → f x = g x) :
    siblings node f i lo len = siblings node g j lo len := by
  refine List.map_congr_left fun m hm => ?_
  obtain ⟨hlo,hhi⟩ := List.mem_range'_1.mp hm
  rw [← div_two_pow_eq_of_le hij hlo]
  exact nodeAt_congr (h m hlo hhi)

theorem climb_siblings (f : ℕ → H) (i r len : ℕ) :
    climb node i r (nodeAt node f r (i / 2^r)) (siblings node f i r len) =
      nodeAt node f (r+len) (i / 2^(r+len)) := by
  induction len generalizing r with
  | zero => rfl
  | succ len ih =>
    have hjoin := @join_sib H node f r (i / 2^r)
    rw [← div_two_pow_succ] at hjoin
    rw [siblings_succ,climb]
    simp only [testBit_iff_div,hjoin]
    rw [ih,Nat.add_right_comm,Nat.add_assoc]

theorem ValidPath.climb (h : ValidPath node f n i p) :
    climb node i 0 (f i) p = nodeAt node f p.length (n / 2^p.length - 1) := by
  obtain ⟨k,hk,rfl⟩ := h
  have hclimb := @climb_siblings H node f i 0 k
  rw [Nat.zero_add] at hclimb
  rw [length_siblings,← hk.2,Nat.add_sub_cancel,← hclimb]
  simp [nodeAt]

theorem climb_congr_low {h : H} (hij : i % 2^k = j % 2^k)
    (hk : r + p.length ≤ k) : climb node i r h p = climb node j r h p := by
  induction p generalizing r h with
  | nil => rfl
  | cons s p ih =>
    rw [List.length_cons] at hk
    have hbit : i.testBit r = j.testBit r := by
      have := congrArg (Nat.testBit · r) hij
      have hr : r < k := by omega
      simpa [Nat.testBit_mod_two_pow,hr] using this
    rw [climb,climb,hbit]
    exact ih (by omega)

end Nodes

section Growth

variable {node}

variable {f trees : ℕ → H} {p : List H}

theorem dvd_succ_of_odd (hlow : 2^k ∣ n + 1) (hodd : n / 2^k % 2 = 1) : 2^(k+1) ∣ n + 1 := by
  have hdiv := Nat.succ_div_of_dvd hlow
  rw [pow_succ]
  exact (Nat.dvd_div_iff_mul_dvd hlow).mp (by rw [hdiv]; omega)

theorem not_dvd_succ_of_even (hlow : 2^k ∣ n + 1) (heven : n / 2^k % 2 = 0) :
    ¬ 2^(k+1) ∣ n + 1 := by
  intro hdvd
  have hdiv := Nat.succ_div_of_dvd hlow
  rw [pow_succ] at hdvd
  have := (Nat.dvd_div_iff_mul_dvd hlow).mpr hdvd
  omega

theorem succ_div_of_even (hlow : 2^k ∣ n + 1) (heven : n / 2^k % 2 = 0) (hm : k < m) :
    (n + 1) / 2^m = n / 2^m :=
  Nat.succ_div_of_not_dvd fun hdvd =>
    not_dvd_succ_of_even hlow heven ((Nat.pow_dvd_pow 2 hm).trans hdvd)

theorem succ_div_even_below (hlow : 2^k ∣ n + 1) (hm : m < k) : (n + 1) / 2^m % 2 = 0 := by
  have hdvd : 2^(m+1) ∣ n + 1 := (Nat.pow_dvd_pow 2 hm).trans hlow
  rw [pow_succ] at hdvd
  exact Nat.mod_eq_zero_of_dvd ((Nat.dvd_div_iff_mul_dvd (dvd_of_mul_right_dvd hdvd)).mpr hdvd)

theorem carry_node (hroots : HoldsRoots node f n trees)
    (hodd : n / 2^k % 2 = 1) :
    node (trees k) (nodeAt node f k (n / 2^k)) = nodeAt node f (k+1) (n / 2^(k+1)) := by
  rw [hroots k hodd,nodeAt,div_two_pow_succ]
  congr 2 <;> omega

theorem HoldsRoots.insert (hroots : HoldsRoots node f n trees)
    (hlow : 2^k ∣ n + 1) (heven : n / 2^k % 2 = 0) :
    HoldsRoots node f (n+1) (Function.update trees k (nodeAt node f k (n / 2^k))) := by
  intro m hm
  rcases lt_trichotomy m k with hlt | rfl | hgt
  · have := succ_div_even_below hlow hlt
    omega
  · rw [Function.update_self,Nat.succ_div_of_dvd hlow,Nat.add_sub_cancel]
  · rw [succ_div_of_even hlow heven hgt] at hm ⊢
    rw [Function.update_of_ne (by omega),hroots m hm]

theorem lt_add_iff_div_eq (hlow : 2^k ∣ n + 1) (hi : i ≤ n) :
    n < i + 2^k ↔ i / 2^k = n / 2^k := by
  have hdiv := Nat.succ_div_of_dvd hlow
  have hle : i / 2^k ≤ n / 2^k := Nat.div_le_div_right hi
  have hmul : (n / 2^k + 1) * 2^k = n + 1 := by rw [← hdiv,Nat.div_mul_cancel hlow]
  have hsplit := Nat.div_add_mod' i (2^k)
  have hmod := Nat.mod_lt i (Nat.two_pow_pos k)
  constructor
  · intro hlt
    by_contra hne
    have : (i / 2^k + 1) * 2^k ≤ n / 2^k * 2^k := Nat.mul_le_mul_right _ (by omega)
    rw [Nat.add_mul] at this hmul
    omega
  · intro heq
    rw [heq] at hsplit
    rw [Nat.add_mul] at hmul
    omega

theorem pathFrom_zero_iff :
    PathFrom node f n i 0 p ↔ ValidPath node f n i p := by
  constructor
  · rintro ⟨len,rfl,hin⟩
    exact ⟨len,by simpa using hin,rfl⟩
  · rintro ⟨k,hin,rfl⟩
    exact ⟨k,rfl,by simpa using hin⟩

def path (node : H → H → H) (f : ℕ → H) (n i : ℕ) : List H := siblings node f i 0 (mergeHeight n i - 1)

theorem validPath_iff :
    ValidPath node f n i p ↔ i < n ∧ p = path node f n i := by
  constructor
  · rintro ⟨k,hin,rfl⟩
    exact ⟨hin.lt,by rw [path,hin.mergeHeight,Nat.add_sub_cancel]⟩
  · rintro ⟨hlt,rfl⟩
    obtain ⟨k,hin⟩ := exists_inTree hlt
    exact ⟨k,hin,by rw [path,hin.mergeHeight,Nat.add_sub_cancel]⟩

theorem PathFrom.extend (hi : InTree n k i) (hj : InTree n k j)
    (h : PathFrom node f n' j k p) : ValidPath node f n' i (siblings node f i 0 k ++ p) := by
  obtain ⟨len,rfl,hin⟩ := h
  have hcol := hi.div_eq hj
  refine ⟨k + len,hin.of_div_eq hcol.symm (Nat.le_add_right k len),?_⟩
  have hsame : siblings node f j k len = siblings node f i k len :=
    MerkleForest.siblings_congr hcol.symm fun _ _ _ _ _ => rfl
  rw [siblings_add,Nat.zero_add,hsame]

theorem PathFrom.merging (h : PathFrom node f n i lo p) :
    MergingPath node f n 0 i lo p := by
  obtain ⟨len,rfl,hin⟩ := h
  exact ⟨len,rfl,Or.inr ⟨by simpa using hin.lt.ne,hin⟩⟩

theorem mergingPath_self (f : ℕ → H) (n : ℕ) : MergingPath node f n 0 n 0 [] :=
  ⟨0,rfl,Or.inl ⟨rfl,rfl⟩⟩

/-- A position of the new subtree gets the old root as its sibling, one of the old tree the new
root, and all others are left alone. -/
theorem MergingPath.merge
    (h : MergingPath node f n k i lo p) (hodd : n / 2^k % 2 = 1) :
    MergingPath node f n (k+1) i lo
      (p ++ if i / 2^k = n / 2^k then [nodeAt node f k (n / 2^k - 1)]
        else if i / 2^(k+1) = n / 2^(k+1) then [nodeAt node f k (n / 2^k)] else []) := by
  obtain ⟨len,rfl,⟨hnew,hlen⟩ | ⟨hold,hin⟩⟩ := h
  · refine ⟨len+1,?_,Or.inl ⟨?_,by omega⟩⟩
    · have hsib : n / 2^k - 1 = sib (i / 2^k) := by
        rw [hnew,sib_of_odd hodd]
        omega
      rw [if_pos hnew,siblings_snoc,hlen,hsib]
    · rw [div_two_pow_succ,div_two_pow_succ,hnew]
  · rw [if_neg hold]
    split_ifs with hup
    · -- the position lies in the tree of height `k`, whose proofs end just below row `k`
      have hhalf := hup
      rw [div_two_pow_succ,div_two_pow_succ] at hhalf
      have hk : InTree n k i := ⟨hodd,by omega⟩
      have hlen := hin.unique hk
      have hsib : n / 2^k = sib (i / 2^k) := eq_sib_of_div_two hhalf hold
      exact ⟨len+1,by rw [siblings_snoc,hlen,← hsib],Or.inl ⟨hup,by omega⟩⟩
    · exact ⟨len,by rw [List.append_nil],Or.inr ⟨hup,hin⟩⟩

theorem MergingPath.finish
    (h : MergingPath node f n k i lo p) (hlow : 2^k ∣ n + 1) (heven : n / 2^k % 2 = 0) :
    PathFrom node f (n+1) i lo p := by
  obtain ⟨len,rfl,⟨hnew,hlen⟩ | ⟨hold,hin⟩⟩ := h
  · refine ⟨len,rfl,?_,?_⟩
    · rw [hlen,Nat.succ_div_of_dvd hlow]
      omega
    · rw [hlen,Nat.succ_div_of_dvd hlow,hnew]
  · -- a tree below row `k` would lie in the new subtree, and there is none at row `k`
    have hk : k < lo + len := by
      by_contra hle
      rcases Nat.lt_or_eq_of_le (not_lt.mp hle) with hlt | heq
      · exact hold (div_two_pow_eq_of_le hin.div_succ hlt)
      · have := hin.1
        rw [heq] at this
        omega
    have hdiv := succ_div_of_even hlow heven hk
    exact ⟨len,rfl,by rw [hdiv]; exact hin.1,by rw [hdiv]; exact hin.2⟩

theorem HoldsRoots.congr {g : ℕ → H} (hroots : HoldsRoots node f n trees)
    (hfg : ∀ i < n, f i = g i) : HoldsRoots node g n trees := by
  intro k hk
  rw [hroots k hk]
  refine nodeAt_congr fun i hi => hfg i ?_
  exact (inTree_of_col hk hi).lt

end Growth

section Binding

variable {node}

def climbPairs (node : H → H → H) (i : ℕ) : ℕ → H → List H → List (H × H)
  | _, _, [] => []
  | r, h, s :: rest =>
    (if i.testBit r then (s, h) else (h, s)) ::
      climbPairs node i (r+1) (if i.testBit r then node s h else node h s) rest

variable {p : List H} {S : Set (H × H)} {f g : ℕ → H}

theorem climbPairs_congr_low {h : H}
    (hij : i % 2^k = j % 2^k) (hk : r + p.length ≤ k) :
    climbPairs node i r h p = climbPairs node j r h p := by
  induction p generalizing r h with
  | nil => rfl
  | cons s p ih =>
    rw [List.length_cons] at hk
    have hbit : i.testBit r = j.testBit r := by
      have := congrArg (·.testBit r) hij
      simpa [Nat.testBit_mod_two_pow,show r < k by omega] using this
    rw [climbPairs,climbPairs,hbit,ih (by omega)]

def treePairs (node : H → H → H) (f : ℕ → H) : ℕ → ℕ → List (H × H)
  | 0, _ => []
  | k+1, c => (nodeAt node f k (2*c), nodeAt node f k (2*c+1)) ::
      (treePairs node f k (2*c) ++ treePairs node f k (2*c+1))

theorem lt_bitLen_of_testBit (h : n.testBit k = true) : k < bitLen n := by
  rw [← not_le,bitLen_le_iff,not_lt]
  exact Nat.ge_two_pow_of_testBit h

/-- The pairs joined inside the trees of the forest of `n` leaves. -/
def forestPairs (node : H → H → H) (f : ℕ → H) (n : ℕ) : List (H × H) :=
  (List.range (bitLen n)).flatMap fun k =>
    if n.testBit k then treePairs node f k (n / 2^k - 1) else []

theorem mem_treePairs (f : ℕ → H) (hj : j < k) :
    (nodeAt node f j (2*(i/2^(j+1))), nodeAt node f j (2*(i/2^(j+1))+1)) ∈
      treePairs node f k (i / 2^k) := by
  induction k with
  | zero => omega
  | succ k ih =>
    rw [treePairs,List.mem_cons,List.mem_append]
    rcases Nat.lt_succ_iff_lt_or_eq.mp hj with hlt | rfl
    · right
      rcases Nat.mod_two_eq_zero_or_one (i / 2^k) with he | ho
      · left
        have hcol : 2 * (i / 2^k / 2) = i / 2^k := by omega
        rw [div_two_pow_succ i k,hcol]
        exact ih hlt
      · right
        have hcol : 2 * (i / 2^k / 2) + 1 = i / 2^k := by omega
        rw [div_two_pow_succ i k,hcol]
        exact ih hlt
    · exact Or.inl rfl

theorem mem_forestPairs (f : ℕ → H) (hk : InTree n k i) (hj : j < k) :
    (nodeAt node f j (2*(i/2^(j+1))), nodeAt node f j (2*(i/2^(j+1))+1)) ∈ forestPairs node f n := by
  have hbit : n.testBit k = true := (testBit_iff_div n k).mpr hk.1
  refine List.mem_flatMap.mpr ⟨k,List.mem_range.mpr (lt_bitLen_of_testBit hbit),?_⟩
  rw [if_pos hbit,← hk.2,Nat.add_sub_cancel]
  exact mem_treePairs f hj

theorem nodeAt_binding (hinj : Set.InjOn (Function.uncurry node) S) {col : ℕ}
    (hf : ∀ x ∈ treePairs node f k col, x ∈ S) (hg : ∀ x ∈ treePairs node g k col, x ∈ S)
    (heq : nodeAt node f k col = nodeAt node g k col) (hi : i / 2^k = col) : f i = g i := by
  induction k generalizing col with
  | zero =>
    rw [pow_zero,Nat.div_one] at hi
    rw [hi]
    exact heq
  | succ k ih =>
    rw [treePairs,List.forall_mem_cons,List.forall_mem_append] at hf hg
    obtain ⟨hleft,hright⟩ := Prod.mk.inj (hinj hf.1 hg.1 heq)
    rw [div_two_pow_succ] at hi
    rcases Nat.mod_two_eq_zero_or_one (i / 2^k) with heven | hodd
    · exact ih hf.2.1 hg.2.1 hleft (by omega)
    · exact ih hf.2.2 hg.2.2 hright (by omega)

theorem HoldsRoots.binding (hinj : Set.InjOn (Function.uncurry node) S)
    {trees trees' : ℕ → H} (hroots : HoldsRoots node f n trees) (hroots' : HoldsRoots node g n trees')
    (hsame : ∀ k, n.testBit k = true → trees' k = trees k) (hf : ∀ x ∈ forestPairs node f n, x ∈ S)
    (hg : ∀ x ∈ forestPairs node g n, x ∈ S) (hi : i < n) : f i = g i := by
  obtain ⟨k,hin⟩ := exists_inTree hi
  have hbit : n.testBit k = true := (testBit_iff_div n k).mpr hin.1
  have hcol : i / 2^k = n / 2^k - 1 := Nat.eq_sub_of_add_eq hin.2
  have hmem : ∀ f : ℕ → H, ∀ x ∈ treePairs node f k (n / 2^k - 1), x ∈ forestPairs node f n := fun f x hx =>
    List.mem_flatMap.mpr ⟨k,List.mem_range.mpr (lt_bitLen_of_testBit hbit),by rwa [if_pos hbit]⟩
  refine nodeAt_binding hinj (fun x hx => hf x (hmem f x hx)) (fun x hx => hg x (hmem g x hx)) ?_ hcol
  rw [← hroots k hin.1,← hroots' k hin.1,hsame k hbit]

/-- A climb that reaches a node of the tree started from the tree's own node and used its own
siblings, as long as no two of the pairs joined on the way collide. -/
theorem climb_binding (hinj : Set.InjOn (Function.uncurry node) S) {h : H}
    (hclimb : ∀ x ∈ climbPairs node i r h p, x ∈ S)
    (htree : ∀ j, r ≤ j → j < r + p.length →
      (nodeAt node f j (2*(i/2^(j+1))), nodeAt node f j (2*(i/2^(j+1))+1)) ∈ S)
    (heq : climb node i r h p = nodeAt node f (r + p.length) (i / 2^(r + p.length))) :
    h = nodeAt node f r (i / 2^r) ∧ p = siblings node f i r p.length := by
  induction p generalizing r h with
  | nil => exact ⟨heq,rfl⟩
  | cons s p ih =>
    have hlen : r + (s :: p).length = r + 1 + p.length := by
      rw [List.length_cons]
      omega
    rw [hlen] at heq htree
    rw [climb] at heq
    rw [climbPairs,List.forall_mem_cons] at hclimb
    obtain ⟨hjoin,hrest⟩ := ih hclimb.2 (fun j hj => htree j (by omega)) heq
    rw [List.length_cons,siblings_succ]
    have hpair := htree r le_rfl (by omega)
    rw [div_two_pow_succ] at hpair hjoin
    by_cases hbit : i.testBit r = true
    · have hodd := (testBit_iff_div i r).mp hbit
      simp only [hbit,if_true] at hjoin hclimb
      have hcol : 2 * (i / 2^r / 2) + 1 = i / 2^r := by omega
      have hsame := hinj hclimb.1 hpair (by simpa [nodeAt] using hjoin)
      obtain ⟨hleft,hright⟩ := Prod.mk.inj hsame
      refine ⟨by rw [hright,hcol],?_⟩
      rw [hleft,← hrest,sib_of_odd hodd]
    · have heven : ¬ i / 2^r % 2 = 1 := fun h => hbit ((testBit_iff_div i r).mpr h)
      simp only [hbit,if_false,Bool.false_eq_true] at hjoin hclimb
      have hcol : 2 * (i / 2^r / 2) = i / 2^r := by omega
      have hsame := hinj hclimb.1 hpair (by simpa [nodeAt] using hjoin)
      obtain ⟨hleft,hright⟩ := Prod.mk.inj hsame
      refine ⟨by rw [hleft,hcol],?_⟩
      rw [hright,← hrest,sib_of_even heven]

theorem climb_cancel (hinj : Set.InjOn (Function.uncurry node) S) {h h' : H}
    (hclimb : ∀ x ∈ climbPairs node i r h p, x ∈ S) (hclimb' : ∀ x ∈ climbPairs node j r h' p, x ∈ S)
    (heq : climb node i r h p = climb node j r h' p) : h = h' := by
  induction p generalizing r h h' with
  | nil => exact heq
  | cons s p ih =>
    rw [climb,climb] at heq
    rw [climbPairs,List.forall_mem_cons] at hclimb hclimb'
    have hjoin := ih hclimb.2 hclimb'.2 heq
    have hpair : (if i.testBit r then (s, h) else (h, s)) = if j.testBit r then (s, h') else (h', s) := by
      refine hinj hclimb.1 hclimb'.1 ?_
      rw [apply_ite (Function.uncurry node),apply_ite (Function.uncurry node)]
      exact hjoin
    split_ifs at hpair <;> obtain ⟨hleft,hright⟩ := Prod.mk.inj hpair
    · exact hright
    · exact hright.trans hleft
    · exact hleft.trans hright
    · exact hleft

end Binding

end MerkleForest
