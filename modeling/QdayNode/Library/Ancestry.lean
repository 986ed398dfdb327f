import Mathlib

/-!
# Ancestry

Positions linked by a partial parent function.  `Down parent x l z` says that parents
lead from `x` to `z`, and that `l` holds the positions passed on the way, `x` first and
`z` left out.
-/
namespace Ancestry

variable {ι : Type*} {parent parent' : ι → Option ι} {x y z : ι} {l m : List ι}

inductive Down (parent : ι → Option ι) : ι → List ι → ι → Prop
  | refl (x : ι) : Down parent x [] x
  | step {x y z : ι} {l : List ι} (hparent : parent x = some y) (hrest : Down parent y l z) : Down parent x (x :: l) z

namespace Down

theorem append (h : Down parent x l y) (h' : Down parent y m z) : Down parent x (l ++ m) z := by
  induction h with
  | refl => exact h'
  | step hparent _ ih => exact step hparent (ih h')

theorem split (h : Down parent x (l ++ m) z) : ∃ y, Down parent x l y ∧ Down parent y m z := by
  induction l generalizing x with
  | nil => exact ⟨x,refl x,h⟩
  | cons a l ih =>
    cases h with
    | step hparent hrest =>
      obtain ⟨y,hl,hm⟩ := ih hrest
      exact ⟨y,step hparent hl,hm⟩

theorem mono (hsub : ∀ a b, parent a = some b → parent' a = some b) (h : Down parent x l z) : Down parent' x l z := by
  induction h with
  | refl x => exact refl x
  | step hparent _ ih => exact step (hsub _ _ hparent) ih

theorem compare {l' : List ι} {z' : ι} (h : Down parent x l z) (h' : Down parent x l' z') (hle : l.length ≤ l'.length) :
    ∃ m, l' = l ++ m ∧ Down parent z m z' := by
  induction h generalizing l' with
  | refl x => exact ⟨l',rfl,h'⟩
  | step hparent _ ih =>
    cases h' with
    | refl => exact absurd hle (Nat.not_succ_le_zero _)
    | step hparent' hrest' =>
      rw [hparent] at hparent'
      obtain rfl := Option.some.inj hparent'
      obtain ⟨m,rfl,hm⟩ := ih hrest' (Nat.le_of_succ_le_succ hle)
      exact ⟨m,rfl,hm⟩

theorem unique {l' : List ι} {z' : ι} (h : Down parent x l z) (h' : Down parent x l' z') (hlen : l.length = l'.length) :
    l = l' ∧ z = z' := by
  obtain ⟨m,hl',hm⟩ := h.compare h' hlen.le
  have hnil : m = [] := by
    have := congrArg List.length hl'
    rw [List.length_append] at this
    exact List.length_eq_zero_iff.mp (by omega)
  subst hnil
  cases hm
  rw [hl',List.append_nil]
  exact ⟨rfl,rfl⟩

theorem of_mem (h : Down parent x l z) (hy : y ∈ l) : ∃ m n, l = m ++ n ∧ Down parent x m y ∧ Down parent y n z := by
  obtain ⟨m,n,rfl⟩ := List.append_of_mem hy
  obtain ⟨w,hm,hn⟩ := h.split
  cases hn with
  | step hparent hrest => exact ⟨m,y :: n,rfl,hm,step hparent hrest⟩

theorem of_none (hnone : parent x = none) (h : Down parent x l z) : l = [] ∧ z = x := by
  cases h with
  | refl => exact ⟨rfl,rfl⟩
  | step hparent _ =>
    rw [hnone] at hparent
    cases hparent

theorem map {κ : Type*} {parent' : κ → Option κ} {f : ι → κ} (hf : ∀ a b, parent a = some b → parent' (f a) = some (f b))
    (h : Down parent x l z) : Down parent' (f x) (l.map f) (f z) := by
  induction h with
  | refl x => exact refl (f x)
  | step hparent _ ih => exact step (hf _ _ hparent) ih

end Down

end Ancestry
