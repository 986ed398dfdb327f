import QdayNode.Library.Outcome

/-!
# Procedures

A method that changes the object it is called on and may return an error: what it has
changed before the error stays changed.  A panic ends the process and leaves no object
behind.  `Triple P p Q E` says that from an object with `P` the procedure ends with
`Q`, or with `E` if it returns an error; it says nothing about panics.
-/

abbrev Procedure (σ α : Type) := ExceptT String (StateT σ Outcome) α

namespace Procedure
open Outcome

variable {msg : String}

variable {σ α β : Type}

def exec (p : Procedure σ α) (s : σ) : Outcome (Except String α × σ) := p.run.run s

/-- Calls a function that may return an error. -/
def call (x : Outcome α) : Procedure σ α := fun s =>
  match x with
  | .ok a => .ok (.ok a, s)
  | .error (.error msg) => .ok (.error msg, s)
  | .error (.panic msg) => .error (.panic msg)

/-- Calls a function that has no error result. -/
def must (x : Outcome α) : Procedure σ α := fun s => (fun a => (.ok a, s)) <$> x

@[simp] theorem exec_pure (a : α) (s : σ) : exec (pure a) s = .ok (.ok a, s) := rfl

@[simp] theorem exec_throw (msg : String) (s : σ) : exec (throw msg : Procedure σ α) s = .ok (.error msg, s) := rfl

@[simp] theorem exec_get (s : σ) : exec (get : Procedure σ σ) s = .ok (.ok s, s) := rfl

@[simp] theorem exec_set (s s' : σ) : exec (set s' : Procedure σ PUnit) s = .ok (.ok ⟨⟩, s') := rfl

@[simp] theorem exec_modify (f : σ → σ) (s : σ) : exec (modify f : Procedure σ PUnit) s = .ok (.ok ⟨⟩, f s) := rfl

theorem exec_bind (p : Procedure σ α) (f : α → Procedure σ β) (s : σ) :
    exec (p >>= f) s = exec p s >>= fun r =>
      match r with
      | (.ok a, s') => exec (f a) s'
      | (.error msg, s') => .ok (.error msg, s') := by
  simp only [exec,ExceptT.run_bind,StateT.run_bind]
  congr 1
  funext r
  obtain ⟨r,s'⟩ := r
  cases r <;> rfl

theorem exec_tryCatch (p : Procedure σ α) (h : String → Procedure σ α) (s : σ) :
    exec (tryCatch p h) s = exec p s >>= fun r =>
      match r with
      | (.ok a, s') => .ok (.ok a, s')
      | (.error msg, s') => exec (h msg) s' := by
  change (ExceptT.tryCatch p h).run.run s = _
  simp only [exec,ExceptT.tryCatch,ExceptT.run_mk,StateT.run_bind]
  congr 1
  funext r
  obtain ⟨r,s'⟩ := r
  cases r <;> rfl

variable {f : α → Procedure σ β} {x : Outcome α}

theorem exec_bind_eq_ok {p : Procedure σ α} {s s' : σ} {r : Except String β} :
    exec (p >>= f) s = .ok (r, s') ↔
      (∃ a s₁, exec p s = .ok (.ok a, s₁) ∧ exec (f a) s₁ = .ok (r, s')) ∨
        ∃ msg, exec p s = .ok (.error msg, s') ∧ r = .error msg := by
  rw [exec_bind,bind_eq_ok]
  constructor
  · rintro ⟨⟨r₁,s₁⟩,hp,hf⟩
    cases r₁ with
    | ok a => exact .inl ⟨a,s₁,hp,hf⟩
    | error msg =>
      obtain ⟨rfl,rfl⟩ := ok_pair hf
      exact .inr ⟨msg,hp,rfl⟩
  · rintro (⟨a,s₁,hp,hf⟩ | ⟨msg,hp,rfl⟩)
    · exact ⟨_,hp,hf⟩
    · exact ⟨_,hp,rfl⟩

theorem exec_get_bind (f : σ → Procedure σ β) (s : σ) : exec (MonadState.get >>= f) s = exec (f s) s := rfl

theorem exec_must_bind_eq_ok {s s' : σ} {r : Except String β} :
    exec (must x >>= f) s = .ok (r, s') ↔ ∃ a, x = .ok a ∧ exec (f a) s = .ok (r, s') := by
  rw [exec_bind]
  cases x with
  | ok a => simp [must,exec,ExceptT.run,StateT.run]
  | error e => simp [must,exec,ExceptT.run,StateT.run]

theorem exec_call_bind_eq_ok {s s' : σ} {r : Except String β} :
    exec (call x >>= f) s = .ok (r, s') ↔
      (∃ a, x = .ok a ∧ exec (f a) s = .ok (r, s')) ∨ ∃ msg, x = .error (.error msg) ∧ r = .error msg ∧ s' = s := by
  rw [exec_bind]
  match x with
  | .ok a => simp [call,exec,ExceptT.run,StateT.run]
  | .error (.error msg) =>
    constructor
    · intro h
      obtain ⟨rfl,rfl⟩ := ok_pair h
      exact .inr ⟨msg,rfl,rfl,rfl⟩
    · rintro (⟨_,h,-⟩ | ⟨_,h,rfl,rfl⟩)
      · cases h
      · cases h
        rfl
  | .error (.panic msg) => simp [call,exec,ExceptT.run,StateT.run]

theorem exec_must_crash {s s' : σ} {r : Except String α} :
    exec (must (crash msg) : Procedure σ α) s ≠ .ok (r, s') := by
  rintro ⟨⟩

/-- Partial correctness, with a condition for the objects left behind by an error. -/
def Triple (P : σ → Prop) (p : Procedure σ α) (Q : α → σ → Prop) (E : σ → Prop) : Prop :=
  ∀ s r s', P s → exec p s = .ok (r, s') →
    match r with
    | .ok a => Q a s'
    | .error _ => E s'

namespace Triple

variable {P P' : σ → Prop} {p : Procedure σ α} {Q Q' : α → σ → Prop} {E E' : σ → Prop} {f : α → Procedure σ β}
  {R : β → σ → Prop}

theorem conseq (h : Triple P p Q E) (hP : ∀ s, P' s → P s) (hQ : ∀ a s, Q a s → Q' a s) (hE : ∀ s, E s → E' s) :
    Triple P' p Q' E' := by
  intro s r s' hs hrun
  have hr := h s r s' (hP s hs) hrun
  cases r with
  | ok a => exact hQ a s' hr
  | error msg => exact hE s' hr

theorem pre (h : Triple P p Q E) (hP : ∀ s, P' s → P s) : Triple P' p Q E :=
  h.conseq hP (fun _ _ => id) fun _ => id

theorem bind (hp : Triple P p Q E) (hf : ∀ a, Triple (Q a) (f a) R E) : Triple P (p >>= f) R E := by
  intro s r s' hs hrun
  rcases exec_bind_eq_ok.mp hrun with ⟨a,s₁,hp₁,hf₁⟩ | ⟨msg,hp₁,rfl⟩
  · exact hf a s₁ r s' (hp s (.ok a) s₁ hs hp₁) hf₁
  · exact hp s (.error msg) s' hs hp₁

theorem pure {a : α} (h : ∀ s, P s → Q a s) : Triple P (pure a) Q E := by
  intro s r s' hs hrun
  obtain ⟨rfl,rfl⟩ := ok_pair hrun
  exact h s hs

theorem throw (h : ∀ s, P s → E s) : Triple P (throw msg : Procedure σ α) Q E := by
  intro s r s' hs hrun
  obtain ⟨rfl,rfl⟩ := ok_pair hrun
  exact h s hs

theorem get {g : σ → Procedure σ β} (h : ∀ s, P s → Triple (fun s' => s' = s) (g s) R E) :
    Triple P (MonadState.get >>= g) R E := by
  intro s r s' hs hrun
  exact h s hs s r s' rfl hrun

theorem modify {f : σ → σ} {R : PUnit → σ → Prop} (h : ∀ s, P s → R ⟨⟩ (f s)) :
    Triple P (modify f : Procedure σ PUnit) R E := by
  intro s r s' hs hrun
  obtain ⟨rfl,rfl⟩ := ok_pair hrun
  exact h s hs

theorem call {x : Outcome α} (hok : ∀ s a, P s → x = .ok a → Q a s) (herror : ∀ s, P s → E s) :
    Triple P (call x) Q E := by
  intro s r s' hs hrun
  match x, hok, hrun with
  | .ok a, hok, hrun =>
    obtain ⟨rfl,rfl⟩ := ok_pair hrun
    exact hok s a hs rfl
  | .error (.error msg), _, hrun =>
    obtain ⟨rfl,rfl⟩ := ok_pair hrun
    exact herror s hs
  | .error (.panic msg), _, hrun => cases hrun

theorem must {x : Outcome α} (hok : ∀ s a, P s → x = .ok a → Q a s) : Triple P (must x) Q E := by
  intro s r s' hs hrun
  match x, hok, hrun with
  | .ok a, hok, hrun =>
    obtain ⟨rfl,rfl⟩ := ok_pair hrun
    exact hok s a hs rfl
  | .error _, _, hrun => cases hrun

theorem tryCatch {h : String → Procedure σ α} (hp : Triple P p Q E) (hh : ∀ msg, Triple E (h msg) Q E') :
    Triple P (tryCatch p h) Q E' := by
  intro s r s' hs hrun
  rw [exec_tryCatch,bind_eq_ok] at hrun
  obtain ⟨⟨r₁,s₁⟩,hp₁,hrun⟩ := hrun
  have hmid := hp s r₁ s₁ hs hp₁
  cases r₁ with
  | ok a =>
    obtain ⟨rfl,rfl⟩ := ok_pair hrun
    exact hmid
  | error msg => exact hh msg s₁ r s' hmid hrun

theorem keeps {I : σ → Prop} {s s' : σ} {r : Except String α} (h : Triple I p (fun _ => I) I) (hI : I s)
    (hrun : exec p s = .ok (r, s')) : I s' := by
  have hend := h s r s' hI hrun
  cases r with
  | ok a => exact hend
  | error msg => exact hend

theorem foldlM {γ : Type} {f : β → γ → Procedure σ β} {I : List γ → β → σ → Prop} {l : List γ}
    (hstep : ∀ pre x post b, l = pre ++ x :: post → Triple (I pre b) (f b x) (I (pre ++ [x])) E) (b : β) :
    Triple (I [] b) (l.foldlM f b) (I l) E := by
  suffices h : ∀ pre post b, l = pre ++ post → Triple (I pre b) (post.foldlM f b) (I l) E from h [] l b rfl
  intro pre post
  induction post generalizing pre with
  | nil =>
    intro b hl
    rw [List.append_nil] at hl
    subst hl
    exact Triple.pure fun s hs => hs
  | cons x post ih =>
    intro b hl
    rw [List.foldlM_cons]
    refine Triple.bind (hstep pre x post b hl) fun b' => ih (pre ++ [x]) b' ?_
    rw [hl,List.append_assoc,List.singleton_append]

end Triple

end Procedure
