import QdayNode.Library.Outcome

/-!
# Computations in lockstep

Two calls agree if both return, with related values, or both fail in the same way.  A
step respects a relation on states if it takes related states to results that agree;
an observation is blind to the relation if related states show the same.
-/
namespace Outcome

variable {α β γ δ σ τ : Type}

/-- Related values, or the same fault. -/
def Agree (R : α → β → Prop) : Outcome α → Outcome β → Prop
  | .ok a, .ok b => R a b
  | .error e, .error e' => e = e'
  | _, _ => False

variable {R : α → β → Prop} {x : Outcome α} {y : Outcome β} {Q : γ → δ → Prop} {f : α → Outcome γ}

theorem agree_ok {a : α} {b : β} (h : R a b) : Agree R (.ok a) (.ok b) := h

theorem agree_rfl {R : α → α → Prop} (hR : ∀ a, R a a) (x : Outcome α) : Agree R x x := by
  cases x with
  | error e => exact rfl
  | ok a => exact hR a

theorem agree_eq {y : Outcome α} : Agree Eq x y ↔ x = y := by
  constructor
  · intro h
    cases x with
    | error e =>
      cases y with
      | error e' => exact congrArg Except.error h
      | ok b => exact h.elim
    | ok a =>
      cases y with
      | error e' => exact h.elim
      | ok b => exact congrArg Except.ok h
  · rintro rfl
    exact agree_rfl (fun _ => rfl) x

theorem Agree.exists_left {b : β} (h : Agree R x (.ok b)) : ∃ a, x = .ok a ∧ R a b := by
  cases x with
  | error e => exact h.elim
  | ok a => exact ⟨a,rfl,h⟩

theorem Agree.mono {Q : α → β → Prop} (h : Agree R x y) (hRQ : ∀ a b, R a b → Q a b) :
    Agree Q x y := by
  cases x with
  | error e =>
    cases y with
    | error e' => exact h
    | ok b => exact h
  | ok a =>
    cases y with
    | error e' => exact h
    | ok b => exact hRQ a b h

theorem Agree.bind
    {g : β → Outcome δ} (h : Agree R x y) (hf : ∀ a b, R a b → Agree Q (f a) (g b)) : Agree Q (x >>= f) (y >>= g) := by
  cases x with
  | error e =>
    cases y with
    | error e' => exact h
    | ok b => exact h.elim
  | ok a =>
    cases y with
    | error e' => exact h.elim
    | ok b => exact hf a b h

theorem Agree.after (x : Outcome α) {g : α → Outcome δ}
    (hf : ∀ a, Agree Q (f a) (g a)) : Agree Q (x >>= f) (x >>= g) := by
  refine Agree.bind (agree_rfl (fun _ => rfl) x) ?_
  rintro a _ rfl
  exact hf a

/-- Related states show the same. -/
def Blind (R : σ → σ → Prop) (x : σ → α) : Prop := ∀ s t, R s t → x s = x t

/-- Related states lead to results that agree. -/
def Respects (R : σ → σ → Prop) (f : σ → Outcome σ) : Prop := ∀ s t, R s t → Agree R (f s) (f t)

namespace Respects

variable {R : σ → σ → Prop}

theorem pure {f : σ → σ} (hf : ∀ s t, R s t → R (f s) (f t)) : Respects R fun s => .ok (f s) :=
  fun s t h => hf s t h

theorem bind {f g : σ → Outcome σ} (hf : Respects R f) (hg : Respects R g) : Respects R fun s => f s >>= g :=
  fun s t h => (hf s t h).bind hg

theorem observe {x : σ → Outcome α} {f : α → σ → Outcome σ} (hx : Blind R x) (hf : ∀ a, Respects R (f a)) :
    Respects R fun s => x s >>= fun a => f a s := by
  intro s t h
  change Agree R (x s >>= _) (x t >>= _)
  rw [hx s t h]
  exact Agree.after (x t) fun a => hf a s t h

theorem foldlM {f : σ → α → Outcome σ} (hf : ∀ a, Respects R fun s => f s a) (l : List α) :
    Respects R fun s => l.foldlM f s := by
  induction l with
  | nil => exact pure fun s t h => h
  | cons a l ih => exact (hf a).bind ih

theorem foldIdx {f : ℕ → α → σ → Outcome σ} (hf : ∀ i a, Respects R (f i a)) (l : List α) (i : ℕ) :
    Respects R fun s => Outcome.foldIdx f l i s := by
  induction l generalizing i with
  | nil => exact pure fun s t h => h
  | cons a l ih => exact (hf i a).bind (ih (i+1))

end Respects

end Outcome
