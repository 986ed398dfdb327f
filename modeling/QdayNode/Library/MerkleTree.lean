import QdayNode.Library.MerkleForest
import QdayNode.Library.Word64

/-!
# A Merkle tree over a list of any length

The accumulator keeps one perfect tree for every set bit of the leaf count and joins
them, smallest first, into a single root.
-/
namespace MerkleTree
open Word64

variable {H : Type*}

structure Accumulator (H : Type*) where
  trees : ℕ → H
  numLeaves : ℕ

namespace Accumulator
variable (node : H → H → H)

def empty (zero : H) : Accumulator H := ⟨fun _ => zero, 0⟩

/-- The first height without a tree, and the new subtree merged up to it. -/
def carry (acc : Accumulator H) : ℕ → ℕ → H → ℕ × H
  | 0, i, h => (i, h)
  | fuel+1, i, h =>
    if acc.numLeaves.testBit i then acc.carry fuel (i+1) (node (acc.trees i) h) else (i, h)

def addLeaf (acc : Accumulator H) (h : H) : Accumulator H :=
  let (i, root) := acc.carry node 64 0 h
  ⟨Function.update acc.trees i root, acc.numLeaves + 1⟩

def joinFrom (acc : Accumulator H) : ℕ → ℕ → H → H
  | 0, _, root => root
  | fuel+1, i, root =>
    acc.joinFrom fuel (i+1) (if acc.numLeaves.testBit i then node (acc.trees i) root else root)

def root (zero : H) (acc : Accumulator H) : H :=
  let i := trailingZeros64 acc.numLeaves
  if i = 64 then zero else acc.joinFrom node (64 - (i+1)) (i+1) (acc.trees i)

end Accumulator

def merkleRoot (node : H → H → H) (zero : H) (leaves : List H) : H :=
  (leaves.foldl (Accumulator.addLeaf node) (Accumulator.empty zero)).root node zero

section Homomorphism

variable {H' : Type*} {node : H → H → H} {node' : H' → H' → H'} {φ : H → H'}

def Accumulator.map (φ : H → H') (acc : Accumulator H) : Accumulator H' := ⟨φ ∘ acc.trees, acc.numLeaves⟩

@[simp] theorem Accumulator.map_trees (acc : Accumulator H) (i : ℕ) : (acc.map φ).trees i = φ (acc.trees i) := rfl

@[simp] theorem Accumulator.map_numLeaves (acc : Accumulator H) : (acc.map φ).numLeaves = acc.numLeaves := rfl

theorem carry_map (hφ : ∀ a b, φ (node a b) = node' (φ a) (φ b)) (acc : Accumulator H) (fuel i : ℕ) (h : H) :
    (acc.map φ).carry node' fuel i (φ h) = ((acc.carry node fuel i h).1, φ (acc.carry node fuel i h).2) := by
  induction fuel generalizing i h with
  | zero => rfl
  | succ fuel ih =>
    rw [Accumulator.carry,Accumulator.carry]
    simp only [Accumulator.map_numLeaves,Accumulator.map_trees,← hφ,ih]
    split_ifs
    · rfl
    · rfl

theorem addLeaf_map (hφ : ∀ a b, φ (node a b) = node' (φ a) (φ b)) (acc : Accumulator H) (h : H) :
    (acc.map φ).addLeaf node' (φ h) = (acc.addLeaf node h).map φ := by
  rw [Accumulator.addLeaf,carry_map hφ]
  simp only [Accumulator.addLeaf,Accumulator.map,Function.comp_update]

theorem joinFrom_map (hφ : ∀ a b, φ (node a b) = node' (φ a) (φ b)) (acc : Accumulator H) (fuel i : ℕ) (root : H) :
    (acc.map φ).joinFrom node' fuel i (φ root) = φ (acc.joinFrom node fuel i root) := by
  induction fuel generalizing i root with
  | zero => rfl
  | succ fuel ih =>
    rw [Accumulator.joinFrom,Accumulator.joinFrom,← ih]
    simp only [Accumulator.map_numLeaves,Accumulator.map_trees,apply_ite φ,hφ]
    congr

theorem merkleRoot_map (node : H → H → H) (node' : H' → H' → H') (φ : H → H')
    (hφ : ∀ a b, φ (node a b) = node' (φ a) (φ b)) (zero : H) (leaves : List H) :
    merkleRoot node' (φ zero) (leaves.map φ) = φ (merkleRoot node zero leaves) := by
  have hfold : ∀ acc : Accumulator H, (leaves.map φ).foldl (Accumulator.addLeaf node') (acc.map φ) =
      (leaves.foldl (Accumulator.addLeaf node) acc).map φ := by
    induction leaves with
    | nil => exact fun acc => rfl
    | cons h leaves ih =>
      intro acc
      rw [List.map_cons,List.foldl_cons,List.foldl_cons,addLeaf_map hφ,ih]
  have hempty : (Accumulator.empty zero).map φ = Accumulator.empty (φ zero) := rfl
  rw [merkleRoot,merkleRoot,← hempty,hfold]
  simp only [Accumulator.root,Accumulator.map_numLeaves,Accumulator.map_trees,joinFrom_map hφ,apply_ite φ]

end Homomorphism

section Carry

theorem testBit_of_div_eq {n n' i j : ℕ} (h : n / 2^i = n' / 2^i) (hj : i ≤ j) : n.testBit j = n'.testBit j := by
  obtain ⟨k,rfl⟩ := Nat.exists_eq_add_of_le hj
  rw [Nat.add_comm,← Nat.testBit_div_two_pow,h,Nat.testBit_div_two_pow]

theorem add_two_pow_div_succ (n i : ℕ) : (n + 2^i) / 2^(i+1) = (n / 2^i + 1) / 2 := by
  rw [pow_succ,← Nat.div_div_eq_div_mul,Nat.add_div_right _ (Nat.two_pow_pos i)]

theorem testBit_carried {n i j : ℕ} (hbit : n.testBit i = true) (hj : i + 1 ≤ j) :
    (n + 2^i).testBit j = (n + 2^(i+1)).testBit j := by
  have hodd : n / 2^i % 2 = 1 := by rwa [Nat.testBit_eq_decide_div_mod_eq,decide_eq_true_iff] at hbit
  have hdiv : n / 2^(i+1) = n / 2^i / 2 := by rw [pow_succ,Nat.div_div_eq_div_mul]
  have hsame : (n + 2^i) / 2^(i+1) = (n + 2^(i+1)) / 2^(i+1) := by
    rw [add_two_pow_div_succ,Nat.add_div_right _ (Nat.two_pow_pos (i+1)),hdiv]
    omega
  exact testBit_of_div_eq hsame hj

theorem testBit_absorbed {n i j : ℕ} (hbit : n.testBit i = false) (hj : i + 1 ≤ j) :
    (n + 2^i).testBit j = n.testBit j := by
  have heven : n / 2^i % 2 ≠ 1 := by rwa [Nat.testBit_eq_decide_div_mod_eq,decide_eq_false_iff_not] at hbit
  have hdiv : n / 2^(i+1) = n / 2^i / 2 := by rw [pow_succ,Nat.div_div_eq_div_mul]
  have hsame : (n + 2^i) / 2^(i+1) = n / 2^(i+1) := by
    rw [add_two_pow_div_succ,hdiv]
    omega
  exact testBit_of_div_eq hsame hj

theorem carry_room {n fuel i : ℕ} (hroom : n / 2^i + 1 < 2^(fuel+1)) (hbit : n.testBit i = true) :
    n / 2^(i+1) + 1 < 2^fuel := by
  have hodd : n / 2^i % 2 = 1 := by rwa [Nat.testBit_eq_decide_div_mod_eq,decide_eq_true_iff] at hbit
  have hdiv : n / 2^(i+1) = n / 2^i / 2 := by rw [pow_succ,Nat.div_div_eq_div_mul]
  rw [pow_succ] at hroom
  omega

/-- A carry clears the bits it passes and sets the one where it ends; joining the trees from there on
is joining all of them. -/
theorem carry_spec (node : H → H → H) (acc : Accumulator H) (fuel i : ℕ) (h : H)
    (hroom : acc.numLeaves / 2^i + 1 < 2^fuel) :
    i ≤ (acc.carry node fuel i h).1 ∧ (acc.carry node fuel i h).1 < i + fuel ∧
      (∀ j, i ≤ j → j < (acc.carry node fuel i h).1 → (acc.numLeaves + 2^i).testBit j = false) ∧
      (acc.numLeaves + 2^i).testBit (acc.carry node fuel i h).1 = true ∧
      (∀ j, (acc.carry node fuel i h).1 < j → (acc.numLeaves + 2^i).testBit j = acc.numLeaves.testBit j) ∧
      acc.joinFrom node fuel i h = acc.joinFrom node (i + fuel - ((acc.carry node fuel i h).1 + 1))
        ((acc.carry node fuel i h).1 + 1) (acc.carry node fuel i h).2 := by
  induction fuel generalizing i h with
  | zero => exact absurd hroom (Nat.not_lt.mpr (Nat.le_add_left 1 _))
  | succ fuel ih =>
    have hlow : (acc.numLeaves + 2^i).testBit i = !acc.numLeaves.testBit i := by
      rw [Nat.add_comm,Nat.testBit_two_pow_add_eq]
    rw [Accumulator.carry,Accumulator.joinFrom]
    cases hbit : acc.numLeaves.testBit i with
    | true =>
      rw [hbit] at hlow
      obtain ⟨hle,hlt,hclear,hset,habove,hjoin⟩ := ih (i+1) (node (acc.trees i) h) (carry_room hroom hbit)
      rw [if_pos rfl,if_pos rfl]
      refine ⟨by omega,by omega,fun j hj hlt' => ?_,?_,fun j hj => ?_,?_⟩
      · rcases Nat.eq_or_lt_of_le hj with rfl | hj
        · exact hlow
        · rw [testBit_carried hbit hj]
          exact hclear j hj hlt'
      · rw [testBit_carried hbit hle]
        exact hset
      · rw [testBit_carried hbit (by omega)]
        exact habove j hj
      · rw [hjoin,Nat.add_right_comm i 1 fuel,Nat.add_assoc i fuel 1]
    | false =>
      rw [hbit] at hlow
      rw [if_neg Bool.false_ne_true,if_neg Bool.false_ne_true]
      refine ⟨le_rfl,by omega,fun j hj hlt => absurd hlt (by omega),hlow,fun j hj => testBit_absorbed hbit hj,?_⟩
      rw [show i + (fuel + 1) - (i + 1) = fuel by omega]

variable {node : H → H → H}

theorem joinFrom_congr {acc acc' : Accumulator H} {i : ℕ} (htrees : ∀ j, i ≤ j → acc.trees j = acc'.trees j)
    (hbits : ∀ j, i ≤ j → acc.numLeaves.testBit j = acc'.numLeaves.testBit j) (fuel : ℕ) (root : H) :
    acc.joinFrom node fuel i root = acc'.joinFrom node fuel i root := by
  induction fuel generalizing i root with
  | zero => rfl
  | succ fuel ih =>
    rw [Accumulator.joinFrom,Accumulator.joinFrom,htrees i le_rfl,hbits i le_rfl]
    exact ih (fun j hj => htrees j (by omega)) (fun j hj => hbits j (by omega)) _

/-- The trees that a new leaf is joined to, smallest first. -/
def Accumulator.branch (acc : Accumulator H) : List H :=
  (List.range 64).filterMap fun i => if acc.numLeaves.testBit i then some (acc.trees i) else none

theorem foldl_branch (acc : Accumulator H) (fuel i : ℕ) (root : H) :
    ((List.range' i fuel).filterMap fun i => if acc.numLeaves.testBit i then some (acc.trees i) else none).foldl
      (fun root tree => node tree root) root = acc.joinFrom node fuel i root := by
  induction fuel generalizing i root with
  | zero => rfl
  | succ fuel ih =>
    rw [List.range'_succ,Accumulator.joinFrom,List.filterMap_cons]
    split_ifs with hbit
    · exact ih (i+1) _
    · exact ih (i+1) _

/-- The root after one more leaf is that leaf with the trees joined to it from the left. -/
theorem root_addLeaf (acc : Accumulator H) (zero h : H) (hroom : acc.numLeaves + 1 < 2^64) :
    (acc.addLeaf node h).root node zero = acc.branch.foldl (fun root tree => node tree root) h := by
  obtain ⟨-,hlt,hclear,hset,habove,hjoin⟩ := carry_spec node acc 64 0 h (by rwa [pow_zero,Nat.div_one])
  have hcount : (acc.addLeaf node h).numLeaves = acc.numLeaves + 2^0 := rfl
  have htrees : (acc.addLeaf node h).trees =
      Function.update acc.trees (acc.carry node 64 0 h).1 (acc.carry node 64 0 h).2 := rfl
  have hzeros : trailingZeros64 (acc.addLeaf node h).numLeaves = (acc.carry node 64 0 h).1 := by
    obtain ⟨-,hbit,hlow⟩ := trailingZeros64_spec (x := (acc.addLeaf node h).numLeaves)
      (by rw [hcount]; omega) (by rw [hcount,pow_zero]; exact hroom)
    rw [hcount] at hbit hlow ⊢
    refine le_antisymm (Nat.not_lt.mp fun hgt => ?_) (Nat.not_lt.mp fun hgt => ?_)
    · exact absurd hset (ne_true_of_eq_false (hlow _ hgt))
    · exact absurd hbit (ne_true_of_eq_false (hclear _ (Nat.zero_le _) hgt))
  rw [Accumulator.root,hzeros]
  simp only [if_neg (show (acc.carry node 64 0 h).1 ≠ 64 by omega)]
  rw [Accumulator.branch,List.range_eq_range',foldl_branch,hjoin,htrees,Function.update_self,Nat.zero_add]
  refine joinFrom_congr (fun j hj => ?_) (fun j hj => ?_) _ _
  · rw [htrees]
    exact Function.update_of_ne (by omega) _ _
  · rw [hcount]
    exact habove j hj

theorem numLeaves_foldl (l : List H) (acc : Accumulator H) :
    (l.foldl (Accumulator.addLeaf node) acc).numLeaves = acc.numLeaves + l.length := by
  induction l generalizing acc with
  | nil => rfl
  | cons t l ih =>
    rw [List.foldl_cons,ih,List.length_cons,Accumulator.addLeaf]
    exact Nat.add_right_comm _ _ _

theorem merkleRoot_concat (zero h : H) (l : List H) (hlen : l.length + 1 < 2^64) :
    merkleRoot node zero (l ++ [h]) =
      (l.foldl (Accumulator.addLeaf node) (Accumulator.empty zero)).branch.foldl (fun root tree => node tree root) h := by
  rw [merkleRoot,List.foldl_append,List.foldl_cons,List.foldl_nil]
  refine root_addLeaf _ zero h ?_
  rw [numLeaves_foldl]
  simpa [Accumulator.empty] using hlen

end Carry

/-- The trees that the accumulator builds, before anything is hashed. -/
inductive Tree (X : Type*)
  | zero
  | leaf (x : X)
  | node (left right : Tree X)

namespace Tree

variable {X : Type*}

def leaves : Tree X → List X
  | zero => []
  | leaf x => [x]
  | node left right => left.leaves ++ right.leaves

def ofList (l : List X) : Tree X := merkleRoot node zero (l.map leaf)

/-- The leaves of the trees at the heights `i, i+1, …` of a counter that shows `n`, highest first. -/
def above (trees : ℕ → Tree X) (n : ℕ) : ℕ → ℕ → List X
  | 0, _ => []
  | fuel+1, i => above trees n fuel (i+1) ++ if n.testBit i then (trees i).leaves else []

theorem leaves_joinFrom (acc : Accumulator (Tree X)) (fuel i : ℕ) (root : Tree X) :
    (acc.joinFrom node fuel i root).leaves = above acc.trees acc.numLeaves fuel i ++ root.leaves := by
  induction fuel generalizing i root with
  | zero => rfl
  | succ fuel ih =>
    rw [Accumulator.joinFrom,ih,above,List.append_assoc]
    split_ifs
    · rfl
    · rfl

variable {n : ℕ} {t : Tree X}

theorem above_congr {trees trees' : ℕ → Tree X} {n' fuel i : ℕ} (htrees : ∀ j, i ≤ j → trees j = trees' j)
    (hbits : ∀ j, i ≤ j → n.testBit j = n'.testBit j) : above trees n fuel i = above trees' n' fuel i := by
  induction fuel generalizing i with
  | zero => rfl
  | succ fuel ih =>
    rw [above,above,htrees i le_rfl,hbits i le_rfl]
    rw [ih (fun j hj => htrees j (by omega)) fun j hj => hbits j (by omega)]

/-- The new subtree joins the trees it is carried over. -/
theorem above_carry (acc : Accumulator (Tree X)) (fuel i : ℕ) (t : Tree X) (hroom : acc.numLeaves / 2^i + 1 < 2^fuel) :
    i ≤ (acc.carry node fuel i t).1 ∧
    above (Function.update acc.trees (acc.carry node fuel i t).1 (acc.carry node fuel i t).2)
      (acc.numLeaves + 2^i) fuel i = above acc.trees acc.numLeaves fuel i ++ t.leaves := by
  induction fuel generalizing i t with
  | zero => exact absurd hroom (Nat.not_lt.mpr (Nat.le_add_left 1 _))
  | succ fuel ih =>
    have hlow : (acc.numLeaves + 2^i).testBit i = !acc.numLeaves.testBit i := by
      rw [Nat.add_comm,Nat.testBit_two_pow_add_eq]
    rw [Accumulator.carry]
    cases hbit : acc.numLeaves.testBit i with
    | true =>
      obtain ⟨hle,hih⟩ := ih (i+1) (node (acc.trees i) t) (carry_room hroom hbit)
      rw [if_pos rfl]
      refine ⟨by omega,?_⟩
      rw [above,above,hlow,hbit,if_pos rfl,Bool.not_true,if_neg Bool.false_ne_true,List.append_nil,
        List.append_assoc,above_congr (fun j _ => rfl) fun j hj => testBit_carried hbit hj,hih]
      rfl
    | false =>
      rw [if_neg Bool.false_ne_true]
      refine ⟨le_rfl,?_⟩
      rw [above,above,hlow,hbit,Bool.not_false,if_pos rfl,if_neg Bool.false_ne_true,List.append_nil,
        Function.update_self,above_congr (fun j hj => ?_) fun j hj => testBit_absorbed hbit hj]
      exact Function.update_of_ne (by omega) _ _

theorem above_addLeaf (acc : Accumulator (Tree X)) (t : Tree X) (hroom : acc.numLeaves + 1 < 2^64) :
    above (acc.addLeaf node t).trees (acc.addLeaf node t).numLeaves 64 0 =
      above acc.trees acc.numLeaves 64 0 ++ t.leaves :=
  (above_carry acc 64 0 t (by rwa [pow_zero,Nat.div_one])).2

theorem above_foldl (l : List X) (acc : Accumulator (Tree X)) (hroom : acc.numLeaves + l.length < 2^64) :
    above ((l.map leaf).foldl (Accumulator.addLeaf node) acc).trees
        ((l.map leaf).foldl (Accumulator.addLeaf node) acc).numLeaves 64 0 =
      above acc.trees acc.numLeaves 64 0 ++ l := by
  induction l generalizing acc with
  | nil => exact (List.append_nil _).symm
  | cons x l ih =>
    rw [List.length_cons] at hroom
    have hcount : (acc.addLeaf node (leaf x)).numLeaves = acc.numLeaves + 1 := rfl
    rw [List.map_cons,List.foldl_cons,ih _ (by omega),above_addLeaf _ _ (by omega),List.append_assoc]
    rfl

theorem above_eq_nil (trees : ℕ → Tree X) (fuel i : ℕ) : above trees 0 fuel i = [] := by
  induction fuel generalizing i with
  | zero => rfl
  | succ fuel ih =>
    rw [above,ih,Nat.zero_testBit]
    rfl

theorem above_skip (trees : ℕ → Tree X) {k : ℕ} (hlow : ∀ j, j < k → n.testBit j = false) (fuel i : ℕ)
    (hle : i ≤ k) : above trees n (fuel + (k - i)) i = above trees n fuel k := by
  obtain ⟨d,rfl⟩ := Nat.exists_eq_add_of_le hle
  rw [Nat.add_sub_cancel_left]
  clear hle
  induction d generalizing i with
  | zero => rfl
  | succ d ih =>
    rw [← Nat.add_assoc,above,hlow i (by omega),if_neg Bool.false_ne_true,List.append_nil]
    rw [ih (i+1) fun j hj => hlow j (by omega),Nat.add_right_comm]
    rfl

theorem leaves_root (acc : Accumulator (Tree X)) (hlt : acc.numLeaves < 2^64) :
    (acc.root node zero).leaves = above acc.trees acc.numLeaves 64 0 := by
  obtain hzero | hpos := Nat.eq_zero_or_pos acc.numLeaves
  · rw [hzero,above_eq_nil,Accumulator.root,hzero]
    rfl
  · obtain ⟨hlt64,hbit,hlow⟩ := trailingZeros64_spec hpos hlt
    obtain ⟨d,hd⟩ := Nat.exists_eq_add_of_lt hlt64
    rw [Accumulator.root]
    simp only [if_neg hlt64.ne]
    have hskip := above_skip acc.trees hlow (d + 1) 0 (Nat.zero_le _)
    rw [leaves_joinFrom,show 64 = d + 1 + (trailingZeros64 acc.numLeaves - 0) by omega,hskip,above,hbit,if_pos rfl]
    congr 2
    omega

theorem leaves_ofList (l : List X) (hlen : l.length < 2^64) : (ofList l).leaves = l := by
  rw [ofList,merkleRoot,leaves_root _ (by rw [numLeaves_foldl,List.length_map]; simpa [Accumulator.empty] using hlen),
    above_foldl _ _ (by simpa [Accumulator.empty] using hlen)]
  change above _ 0 64 0 ++ l = l
  rw [above_eq_nil,List.nil_append]

/-- A tree in which no subtree is missing. -/
def Full : Tree X → Prop
  | zero => False
  | leaf _ => True
  | node left right => left.Full ∧ right.Full

inductive Perfect : ℕ → Tree X → Prop
  | leaf (x : X) : Perfect 0 (.leaf x)
  | node {k : ℕ} {left right : Tree X} (hleft : left.Perfect k) (hright : right.Perfect k) : Perfect (k+1) (.node left right)

/-- A row of perfect trees, none smaller than all that follow it. -/
def Split : Tree X → Prop
  | zero => False
  | leaf _ => True
  | node left right => (∃ k, left.Perfect k ∧ right.leaves.length ≤ 2^k) ∧ right.Split

theorem Perfect.length {k : ℕ} (h : t.Perfect k) : t.leaves.length = 2^k := by
  induction h with
  | leaf x => rfl
  | node _ _ ihl ihr => rw [leaves,List.length_append,ihl,ihr,pow_succ,Nat.mul_two]

theorem Perfect.split {k : ℕ} (h : t.Perfect k) : t.Split := by
  induction h with
  | leaf x => trivial
  | node hleft hright _ ihr => exact ⟨⟨_,hleft,hright.length.le⟩,ihr⟩

theorem Perfect.full {k : ℕ} (h : t.Perfect k) : t.Full := by
  induction h with
  | leaf x => trivial
  | node _ _ ihl ihr => exact ⟨ihl,ihr⟩

theorem Split.full (h : t.Split) : t.Full := by
  induction t with
  | zero => exact h.elim
  | leaf _ => trivial
  | node left right ihl ihr => exact ⟨h.1.choose_spec.1.full,ihr h.2⟩

theorem Split.pos (h : t.Split) : 0 < t.leaves.length := by
  induction t with
  | zero => exact h.elim
  | leaf _ => exact Nat.one_pos
  | node left right ihl ihr => exact (ihr h.2).trans_le (by simp [leaves])

theorem perfect_carry (acc : Accumulator (Tree X)) (hperf : ∀ j, acc.numLeaves.testBit j = true → (acc.trees j).Perfect j)
    (fuel i : ℕ) (t : Tree X) (ht : t.Perfect i) : (acc.carry node fuel i t).2.Perfect (acc.carry node fuel i t).1 := by
  induction fuel generalizing i t with
  | zero => exact ht
  | succ fuel ih =>
    rw [Accumulator.carry]
    split_ifs with hbit
    · exact ih (i+1) (node (acc.trees i) t) (.node (hperf i hbit) ht)
    · exact ht

theorem perfect_foldl (l : List X) (acc : Accumulator (Tree X))
    (hperf : ∀ j, acc.numLeaves.testBit j = true → (acc.trees j).Perfect j) (hroom : acc.numLeaves + l.length < 2^64) :
    ∀ j, ((l.map leaf).foldl (Accumulator.addLeaf node) acc).numLeaves.testBit j = true →
      (((l.map leaf).foldl (Accumulator.addLeaf node) acc).trees j).Perfect j := by
  induction l generalizing acc with
  | nil => exact hperf
  | cons x l ih =>
    rw [List.length_cons] at hroom
    have hnew := perfect_carry acc hperf 64 0 (leaf x) (.leaf x)
    obtain ⟨-,-,hclear,-,habove,-⟩ := carry_spec node acc 64 0 (leaf x)
      (by rw [pow_zero,Nat.div_one]; omega)
    have htrees : (acc.addLeaf node (leaf x)).trees =
        Function.update acc.trees (acc.carry node 64 0 (leaf x)).1 (acc.carry node 64 0 (leaf x)).2 := rfl
    refine ih (acc.addLeaf node (leaf x)) (fun j hj => ?_) ?_
    · rw [htrees]
      by_cases hend : j = (acc.carry node 64 0 (leaf x)).1
      · rwa [hend,Function.update_self]
      · rw [Function.update_of_ne hend]
        refine hperf j ?_
        rcases Nat.lt_or_gt_of_ne hend with hlt | hgt
        · exact absurd hj (ne_true_of_eq_false (hclear j (Nat.zero_le j) hlt))
        · exact (habove j hgt).symm.trans hj
    · change acc.numLeaves + 1 + l.length < 2^64
      omega

theorem split_joinFrom (acc : Accumulator (Tree X)) (hperf : ∀ j, acc.numLeaves.testBit j = true → (acc.trees j).Perfect j)
    (fuel i : ℕ) (root : Tree X) (hroot : root.Split) (hsize : root.leaves.length ≤ 2^i) :
    (acc.joinFrom node fuel i root).Split := by
  induction fuel generalizing i root with
  | zero => exact hroot
  | succ fuel ih =>
    rw [Accumulator.joinFrom]
    split_ifs with hbit
    · refine ih _ _ ⟨⟨i,hperf i hbit,hsize⟩,hroot⟩ ?_
      rw [leaves,List.length_append,(hperf i hbit).length,pow_succ]
      omega
    · exact ih _ _ hroot (hsize.trans (Nat.pow_le_pow_right Nat.two_pos (Nat.le_succ i)))

theorem split_ofList {l : List X} (hne : l ≠ []) (hlen : l.length < 2^64) : (ofList l).Split := by
  set acc := (l.map leaf).foldl (Accumulator.addLeaf node) (Accumulator.empty zero) with hacc
  have hcount : acc.numLeaves = l.length := by
    rw [hacc,numLeaves_foldl,List.length_map]
    exact Nat.zero_add _
  have hperf := perfect_foldl l (Accumulator.empty zero) (fun j hj => by simp [Accumulator.empty] at hj)
    (by simpa [Accumulator.empty] using hlen)
  have hpos : 0 < acc.numLeaves := by
    rw [hcount]
    exact List.length_pos_of_ne_nil hne
  obtain ⟨hlt64,hbit,-⟩ := trailingZeros64_spec hpos (by rwa [hcount])
  change (acc.root node zero).Split
  rw [Accumulator.root]
  simp only [if_neg hlt64.ne]
  refine split_joinFrom acc hperf _ _ _ (hperf _ hbit).split ?_
  rw [(hperf _ hbit).length]
  exact Nat.pow_le_pow_right Nat.two_pos (Nat.le_succ _)

end Tree

section Splitting

variable (node : H → H → H) (zero : H)

/-- The root that splits a list at the largest power of two below its length. -/
def splitRoot : List H → H
  | [] => zero
  | [h] => h
  | h :: h' :: l =>
    let k := 2^Nat.log2 (l.length + 1)
    node (splitRoot ((h :: h' :: l).take k)) (splitRoot ((h :: h' :: l).drop k))
termination_by l => l.length
decreasing_by
  · have := Nat.log2_self_le (n := l.length + 1) (Nat.succ_ne_zero _)
    rw [List.length_take, List.length_cons, List.length_cons]
    omega
  · have := Nat.two_pow_pos (Nat.log2 (l.length + 1))
    rw [List.length_drop, List.length_cons, List.length_cons]
    omega

def Tree.eval : Tree H → H
  | .zero => zero
  | .leaf h => h
  | .node left right => node left.eval right.eval

theorem merkleRoot_nil : merkleRoot node zero [] = zero := by
  have hzeros : trailingZeros64 0 = 64 := by decide
  simp [merkleRoot,Accumulator.root,Accumulator.empty,hzeros]

theorem merkleRoot_eq_eval (l : List H) : merkleRoot node zero l = (Tree.ofList l).eval node zero := by
  have hmap := merkleRoot_map Tree.node node (Tree.eval node zero) (fun _ _ => rfl) Tree.zero (l.map Tree.leaf)
  rwa [List.map_map,show Tree.eval node zero ∘ Tree.leaf = id from rfl,List.map_id] at hmap

theorem splitRoot_append {l l' : List H} {k : ℕ} (hl : l.length = 2^k) (hpos : 0 < l'.length) (hle : l'.length ≤ 2^k) :
    splitRoot node zero (l ++ l') = node (splitRoot node zero l) (splitRoot node zero l') := by
  have hpow := Nat.two_pow_pos k
  match hcat : l ++ l' with
  | [] | [_] =>
    have := congrArg List.length hcat
    simp only [List.length_append,List.length_nil,List.length_cons] at this
    omega
  | h :: h' :: rest =>
    have hlen : rest.length + 2 = l.length + l'.length := by rw [← List.length_append,hcat,List.length_cons,List.length_cons]
    have hlog : Nat.log2 (rest.length + 1) = k := by
      rw [Nat.log2_eq_iff (Nat.succ_ne_zero _),pow_succ]
      omega
    rw [splitRoot,hlog,← hl,← hcat,List.take_left,List.drop_left]

theorem Tree.Split.eval_eq {t : Tree H} (h : t.Split) : t.eval node zero = splitRoot node zero t.leaves := by
  induction t with
  | zero => exact h.elim
  | leaf x => rw [eval,leaves,splitRoot]
  | node left right ihl ihr =>
    obtain ⟨⟨k,hleft,hle⟩,hright⟩ := h
    rw [eval,leaves,splitRoot_append node zero hleft.length hright.pos hle,ihl hleft.split,ihr hright]

theorem merkleRoot_eq_splitRoot {l : List H} (hlen : l.length < 2^64) : merkleRoot node zero l = splitRoot node zero l := by
  obtain rfl | hne := eq_or_ne l []
  · rw [merkleRoot_nil,splitRoot]
  · rw [merkleRoot_eq_eval,(Tree.split_ofList hne hlen).eval_eq,Tree.leaves_ofList l hlen]

end Splitting

section Binding

/-- How the leaves and the pairs of nodes of a tree are written before they are hashed. -/
structure Hashing (X M H : Type*) where
  hash : M → H
  leaf : X → M
  pair : H → H → M
  leaf_injective : Function.Injective leaf
  pair_injective : Function.Injective2 pair
  leaf_ne_pair : ∀ x a b, leaf x ≠ pair a b

variable {X M : Type*} (g : Hashing X M H) (zero : H)

def Tree.digest : Tree X → H
  | .zero => zero
  | .leaf x => g.hash (g.leaf x)
  | .node left right => g.hash (g.pair (left.digest) (right.digest))

def Tree.messages : Tree X → List M
  | .zero => []
  | .leaf x => [g.leaf x]
  | .node left right => g.pair (left.digest g zero) (right.digest g zero) :: (left.messages ++ right.messages)

variable {g zero} {S : Set M}

/-- Without collisions a root has one tree. -/
theorem Tree.digest_injective (hinj : Set.InjOn g.hash S) {t t' : Tree X} (hfull : t.Full) (hfull' : t'.Full)
    (ht : ∀ x ∈ t.messages g zero, x ∈ S) (ht' : ∀ x ∈ t'.messages g zero, x ∈ S)
    (heq : t.digest g zero = t'.digest g zero) : t = t' := by
  induction t generalizing t' with
  | zero => exact hfull.elim
  | leaf x =>
    have hx : g.leaf x ∈ S := ht _ (List.mem_singleton_self _)
    cases t' with
    | zero => exact hfull'.elim
    | leaf y => rw [g.leaf_injective (hinj hx (ht' _ (List.mem_singleton_self _)) heq)]
    | node left right => exact absurd (hinj hx (ht' _ List.mem_cons_self) heq) (g.leaf_ne_pair _ _ _)
  | node left right ihl ihr =>
    have hnode := ht _ List.mem_cons_self
    cases t' with
    | zero => exact hfull'.elim
    | leaf y => exact absurd (hinj hnode (ht' _ (List.mem_singleton_self _)) heq).symm (g.leaf_ne_pair _ _ _)
    | node left' right' =>
      obtain ⟨hleft,hright⟩ := g.pair_injective (hinj hnode (ht' _ List.mem_cons_self) heq)
      rw [ihl hfull.1 hfull'.1 (fun x hx => ht x (List.mem_cons_of_mem _ (List.mem_append_left _ hx)))
          (fun x hx => ht' x (List.mem_cons_of_mem _ (List.mem_append_left _ hx))) hleft,
        ihr hfull.2 hfull'.2 (fun x hx => ht x (List.mem_cons_of_mem _ (List.mem_append_right _ hx)))
          (fun x hx => ht' x (List.mem_cons_of_mem _ (List.mem_append_right _ hx))) hright]

theorem merkleRoot_eq_digest (l : List X) :
    merkleRoot (fun a b => g.hash (g.pair a b)) zero (l.map fun x => g.hash (g.leaf x)) = (Tree.ofList l).digest g zero := by
  have hmap := merkleRoot_map Tree.node (fun a b => g.hash (g.pair a b)) (Tree.digest g zero) (fun _ _ => rfl)
    Tree.zero (l.map Tree.leaf)
  rw [List.map_map] at hmap
  exact hmap

theorem Tree.Full.digest_ne {t : Tree X} (h : t.Full) (hne : ∀ x ∈ t.messages g zero, g.hash x ≠ zero) : t.digest g zero ≠ zero := by
  cases t with
  | zero => exact h.elim
  | leaf x => exact hne _ (List.mem_singleton_self _)
  | node left right => exact hne _ List.mem_cons_self

theorem merkleRoot_injective (hinj : Set.InjOn g.hash S) {l l' : List X} (hne : l ≠ []) (hne' : l' ≠ [])
    (hlen : l.length < 2^64) (hlen' : l'.length < 2^64) (hl : ∀ x ∈ (Tree.ofList l).messages g zero, x ∈ S)
    (hl' : ∀ x ∈ (Tree.ofList l').messages g zero, x ∈ S)
    (heq : merkleRoot (fun a b => g.hash (g.pair a b)) zero (l.map fun x => g.hash (g.leaf x)) =
      merkleRoot (fun a b => g.hash (g.pair a b)) zero (l'.map fun x => g.hash (g.leaf x))) : l = l' := by
  rw [merkleRoot_eq_digest,merkleRoot_eq_digest] at heq
  rw [← Tree.leaves_ofList l hlen,Tree.digest_injective hinj (Tree.split_ofList hne hlen).full
    (Tree.split_ofList hne' hlen').full hl hl' heq,Tree.leaves_ofList l' hlen']

end Binding

end MerkleTree
