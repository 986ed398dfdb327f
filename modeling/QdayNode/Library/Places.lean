import Mathlib

/-!
# Numbered places inside a value

A value of type `X` holds values of type `α` at places that are visited in a fixed
order, each with a label that does not depend on what the place holds.  Code that
visits the places through pointers and writes to them is read as an update by the
number of the place.
-/
namespace Places

variable {X Y ι α : Type*}

/-- The contents of places counted from `s`, after `f` has been written to each. -/
def rewrite (f : ℕ → α → α) (s : ℕ) (l : List (ι × α)) : List (ι × α) := l.mapIdx fun j p => (p.1, f (s + j) p.2)

/-- What is at the places counted from `s` is not changed by `f`. -/
def Kept (f : ℕ → α → α) (s : ℕ) (l : List (ι × α)) : Prop := ∀ j p, l[j]? = some p → f (s + j) p.2 = p.2

@[simp] theorem length_rewrite (f : ℕ → α → α) (s : ℕ) (l : List (ι × α)) : (rewrite f s l).length = l.length :=
  List.length_mapIdx

theorem rewrite_append (f : ℕ → α → α) (s : ℕ) (l m : List (ι × α)) :
    rewrite f s (l ++ m) = rewrite f s l ++ rewrite f (s + l.length) m := by
  unfold rewrite
  rw [List.mapIdx_append]
  congr 2
  funext j p
  rw [Nat.add_assoc,Nat.add_comm j]

variable {f : ℕ → α → α} {s : ℕ} {l m : List (ι × α)}

theorem Kept.left (h : Kept f s (l ++ m)) : Kept f s l := by
  intro j p hp
  apply h j p
  rw [List.getElem?_append_left (List.getElem?_eq_some_iff.mp hp).1,hp]

theorem Kept.right (h : Kept f s (l ++ m)) : Kept f (s + l.length) m := by
  intro j p hp
  rw [Nat.add_assoc]
  apply h (l.length + j) p
  rw [List.getElem?_append_right (by omega),Nat.add_sub_cancel_left,hp]

end Places

/-- The places of `X` that hold an `α`: what is there, and what writing to all of them leaves.
`update f s x` counts the places from `s`. -/
structure Places (X ι α : Type*) where
  get : X → List (ι × α)
  update : (ℕ → α → α) → ℕ → X → X
  get_update : ∀ f s x, get (update f s x) = Places.rewrite f s (get x)
  update_update : ∀ f g s x, update f s (update g s x) = update (fun i a => f i (g i a)) s x
  update_kept : ∀ f s x, Places.Kept f s (get x) → update f s x = x

namespace Places

variable {X Y ι α : Type*}

@[simp] theorem length_get_update (P : Places X ι α) (f : ℕ → α → α) (s : ℕ) (x : X) :
    (P.get (P.update f s x)).length = (P.get x).length := by
  rw [P.get_update,length_rewrite]

def field (label : X → ι) (read : X → α) (write : X → α → X) (hread : ∀ x a, read (write x a) = a)
    (hlabel : ∀ x a, label (write x a) = label x) (hwrite : ∀ x a b, write (write x a) b = write x b)
    (hself : ∀ x, write x (read x) = x) : Places X ι α where
  get x := [(label x, read x)]
  update f s x := write x (f s (read x))
  get_update f s x := by simp [rewrite, hread, hlabel]
  update_update f g s x := by rw [hread, hwrite]
  update_kept f s x h := by
    have hsame := h 0 (label x, read x) rfl
    rw [Nat.add_zero] at hsame
    rw [hsame, hself]

def within (P : Places Y ι α) (read : X → Y) (write : X → Y → X) (hread : ∀ x y, read (write x y) = y)
    (hwrite : ∀ x y z, write (write x y) z = write x z) (hself : ∀ x, write x (read x) = x) : Places X ι α where
  get x := P.get (read x)
  update f s x := write x (P.update f s (read x))
  get_update f s x := by rw [hread, P.get_update]
  update_update f g s x := by rw [hread, hwrite, P.update_update]
  update_kept f s x h := by rw [P.update_kept f s (read x) h, hself]

def prod (P : Places X ι α) (Q : Places Y ι α) : Places (X × Y) ι α where
  get x := P.get x.1 ++ Q.get x.2
  update f s x := (P.update f s x.1, Q.update f (s + (P.get x.1).length) x.2)
  get_update f s x := by rw [rewrite_append, P.get_update, Q.get_update]
  update_update f g s x := by rw [P.update_update, length_get_update, Q.update_update]
  update_kept f s x h := by rw [P.update_kept f s x.1 h.left, Q.update_kept f _ x.2 h.right]

def updateList (P : Places X ι α) (f : ℕ → α → α) : ℕ → List X → List X
  | _, [] => []
  | s, x :: l => P.update f s x :: updateList P f (s + (P.get x).length) l

variable {P : Places X ι α} {β : Type*}

theorem mem_updateList {f : ℕ → α → α} {s : ℕ} {l : List X} {y : X} (hy : y ∈ P.updateList f s l) :
    ∃ x ∈ l, ∃ t, y = P.update f t x := by
  induction l generalizing s with
  | nil => cases hy
  | cons x l ih =>
    rcases List.mem_cons.mp hy with rfl | hrest
    · exact ⟨x,List.mem_cons_self,s,rfl⟩
    · obtain ⟨z,hz,t,rfl⟩ := ih hrest
      exact ⟨z,List.mem_cons_of_mem _ hz,t,rfl⟩

theorem length_flatMap_updateList {g : X → List β}
    (hg : ∀ f s x, (g (P.update f s x)).length = (g x).length) (f : ℕ → α → α) (s : ℕ) (l : List X) :
    ((P.updateList f s l).flatMap g).length = (l.flatMap g).length := by
  induction l generalizing s with
  | nil => rfl
  | cons x l ih => rw [updateList,List.flatMap_cons,List.flatMap_cons,List.length_append,List.length_append,hg,ih]

theorem map_updateList {f : ℕ → α → α} {g : X → β} {Q : ℕ → α → Prop}
    (hg : ∀ s x, (∀ j p, (P.get x)[j]? = some p → Q (s + j) p.2) → g (P.update f s x) = g x) {s : ℕ} {l : List X}
    (hl : ∀ j p, (l.flatMap P.get)[j]? = some p → Q (s + j) p.2) : (P.updateList f s l).map g = l.map g := by
  induction l generalizing s with
  | nil => rfl
  | cons x l ih =>
    rw [List.flatMap_cons] at hl
    have hhead : ∀ j p, (P.get x)[j]? = some p → Q (s + j) p.2 := by
      intro j p hj
      apply hl j p
      rw [List.getElem?_append_left (List.getElem?_eq_some_iff.mp hj).1,hj]
    have htail : ∀ j p, (l.flatMap P.get)[j]? = some p → Q (s + (P.get x).length + j) p.2 := by
      intro j p hj
      rw [Nat.add_assoc]
      apply hl ((P.get x).length + j) p
      rw [List.getElem?_append_right (by omega),Nat.add_sub_cancel_left,hj]
    rw [updateList,List.map_cons,List.map_cons,hg s x hhead,ih htail]

theorem updateList_single (hone : ∀ x, (P.get x).length = 1) (f : ℕ → α → α) (s : ℕ) (l : List X) :
    P.updateList f s l = l.mapIdx fun j x => P.update f (s + j) x := by
  induction l generalizing s with
  | nil => rfl
  | cons x l ih =>
    rw [updateList,hone,ih,List.mapIdx_cons]
    simp only [Nat.add_zero,Nat.add_assoc,Nat.add_comm 1]

def list (P : Places X ι α) : Places (List X) ι α where
  get l := l.flatMap P.get
  update := P.updateList
  get_update f s l := by
    induction l generalizing s with
    | nil => rfl
    | cons x l ih => rw [updateList, List.flatMap_cons, List.flatMap_cons, rewrite_append, P.get_update, ih]
  update_update f g s l := by
    induction l generalizing s with
    | nil => rfl
    | cons x l ih => simp only [updateList, P.update_update, length_get_update, ih]
  update_kept f s l h := by
    induction l generalizing s with
    | nil => rfl
    | cons x l ih =>
      rw [List.flatMap_cons] at h
      rw [updateList, P.update_kept f s x h.left, ih _ h.right]

end Places
