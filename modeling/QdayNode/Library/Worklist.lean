import Mathlib

/-!
# Worklists

A search keeps the nodes that it has expanded and those it has yet to look at.  As long
as the successors of every expanded node are known, what is left when the list runs
empty is everything that can be reached, however the list is ordered.  A second part is
about lists in which every node stands behind all its successors.
-/
namespace Worklist

variable {α : Type*} {R : α → α → Prop}

section Reach

/-- What can be reached from a set of nodes. -/
def Reach (R : α → α → Prop) (start : Set α) : Set α := {x | ∃ s ∈ start, Relation.ReflTransGen R s x}

theorem subset_reach (start : Set α) : start ⊆ Reach R start := fun x hx => ⟨x,hx,.refl⟩

theorem reach_step {start : Set α} {x y : α} (hx : x ∈ Reach R start) (hxy : R x y) : y ∈ Reach R start := by
  obtain ⟨s,hs,hsx⟩ := hx
  exact ⟨s,hs,hsx.tail hxy⟩

theorem reach_subset {start S : Set α} (hstart : start ⊆ S) (hclosed : ∀ x ∈ S, ∀ y, R x y → y ∈ S) :
    Reach R start ⊆ S := by
  rintro x ⟨s,hs,hsx⟩
  induction hsx with
  | refl => exact hstart hs
  | tail _ hyz ih => exact hclosed _ ih _ hyz

end Reach

section Explores

variable {start blocked : Set α} {seen todo : List α} {x : α}

/-- A search that has expanded `seen`, still has `todo` and does not enter `blocked`. -/
structure Explores (R : α → α → Prop) (start blocked : Set α) (seen todo : List α) : Prop where
  begun : ∀ x ∈ start, x ∈ seen ∨ x ∈ todo ∨ x ∈ blocked
  reached : ∀ x, x ∈ seen ∨ x ∈ todo → x ∈ Reach R start
  closed : ∀ x ∈ seen, ∀ y, R x y → y ∈ seen ∨ y ∈ todo ∨ y ∈ blocked

theorem Explores.init {first : List α} (hfirst : ∀ x, x ∈ start ↔ x ∈ first) : Explores R start blocked [] first where
  begun x hx := .inr (.inl ((hfirst x).mp hx))
  reached x hx := by
    rcases hx with hx | hx
    · cases hx
    · exact subset_reach start ((hfirst x).mpr hx)
  closed x hx := by cases hx

theorem Explores.drop (h : Explores R start blocked seen (x :: todo)) (hx : x ∈ seen ∨ x ∈ blocked) :
    Explores R start blocked seen todo := by
  have hkeep : ∀ y, y ∈ seen ∨ y ∈ x :: todo ∨ y ∈ blocked → y ∈ seen ∨ y ∈ todo ∨ y ∈ blocked := by
    intro y hy
    rw [List.mem_cons] at hy
    rcases hy with hy | (rfl | hy) | hy
    · exact .inl hy
    · exact hx.imp_right .inr
    · exact .inr (.inl hy)
    · exact .inr (.inr hy)
  exact ⟨fun y hy => hkeep y (h.begun y hy),fun y hy => h.reached y (hy.imp_right (List.mem_cons_of_mem x)),
    fun y hy z hz => hkeep z (h.closed y hy z hz)⟩

theorem Explores.expand (h : Explores R start blocked seen (x :: todo)) {seen' todo' : List α}
    (hseen : ∀ y, y ∈ seen' ↔ y = x ∨ y ∈ seen) (hkept : ∀ y ∈ todo, y ∈ todo')
    (hnew : ∀ y ∈ todo', y ∈ todo ∨ R x y) (hnext : ∀ y, R x y → y ∈ seen' ∨ y ∈ todo' ∨ y ∈ blocked) :
    Explores R start blocked seen' todo' := by
  have hkeep : ∀ y, y ∈ seen ∨ y ∈ x :: todo ∨ y ∈ blocked → y ∈ seen' ∨ y ∈ todo' ∨ y ∈ blocked := by
    intro y hy
    rw [List.mem_cons] at hy
    rw [hseen]
    rcases hy with hy | (rfl | hy) | hy
    · exact .inl (.inr hy)
    · exact .inl (.inl rfl)
    · exact .inr (.inl (hkept y hy))
    · exact .inr (.inr hy)
  have hx : x ∈ Reach R start := h.reached x (.inr List.mem_cons_self)
  refine ⟨fun y hy => hkeep y (h.begun y hy),?_,?_⟩
  · intro y hy
    rw [hseen] at hy
    rcases hy with (rfl | hy) | hy
    · exact hx
    · exact h.reached y (.inl hy)
    · rcases hnew y hy with hold | hstep
      · exact h.reached y (.inr (List.mem_cons_of_mem x hold))
      · exact reach_step hx hstep
  · intro y hy z hz
    rcases (hseen y).mp hy with rfl | hy
    · exact hnext z hz
    · exact hkeep z (h.closed y hy z hz)

end Explores

section Order

/-- Every node of the list stands behind its successors. -/
def Behind (R : α → α → Prop) (l : List α) : Prop := ∀ pre x post, l = pre ++ x :: post → ∀ y, R x y → y ∈ pre

theorem behind_nil : Behind R ([] : List α) := by
  intro pre x post h
  simp at h

theorem Behind.transGen {l pre post : List α} {x y : α} (h : Behind R l) (hl : l = pre ++ x :: post)
    (hxy : Relation.TransGen R x y) : y ∈ pre := by
  induction hxy with
  | single hxy => exact h pre x post hl _ hxy
  | tail _ hyz ih =>
    obtain ⟨before,between,rfl⟩ := List.append_of_mem ih
    have hbefore := h before _ (between ++ x :: post) (by rw [hl,List.append_assoc,List.cons_append]) _ hyz
    exact List.mem_append_left _ hbefore

theorem split_append {l m pre post : List α} {x : α} (h : l ++ m = pre ++ x :: post) :
    (∃ mid, pre = l ++ mid ∧ m = mid ++ x :: post) ∨ ∃ mid, l = pre ++ x :: mid := by
  rcases List.append_eq_append_iff.mp h with ⟨mid,hpre,hm⟩ | ⟨mid,hl,hm⟩
  · exact .inl ⟨mid,hpre,hm⟩
  · cases mid with
    | nil => exact .inl ⟨[],by rw [hl,List.append_nil,List.append_nil],by rw [hm,List.nil_append,List.nil_append]⟩
    | cons z mid =>
      obtain ⟨rfl,-⟩ := List.cons_eq_cons.mp hm
      exact .inr ⟨mid,hl⟩

theorem Behind.append [LinearOrder α] (hR : ∀ x y, R x y → y < x) {l m : List α} (h : Behind R l)
    (hsorted : m.Pairwise (· ≤ ·)) (hknown : ∀ x ∈ m, ∀ y, R x y → y ∈ l ∨ y ∈ m) : Behind R (l ++ m) := by
  intro pre x post hsplit y hxy
  rcases split_append hsplit with ⟨mid,rfl,rfl⟩ | ⟨mid,hl⟩
  · rw [List.mem_append]
    refine (hknown x (List.mem_append_right _ List.mem_cons_self) y hxy).imp_right fun hy => ?_
    rw [List.mem_append,List.mem_cons] at hy
    rw [List.pairwise_append,List.pairwise_cons] at hsorted
    rcases hy with hy | rfl | hy
    · exact hy
    · exact absurd (hR y y hxy) (lt_irrefl y)
    · exact absurd (hR x y hxy) (not_lt.mpr (hsorted.2.1.1 y hy))
  · exact h pre x mid hl y hxy

end Order

end Worklist
