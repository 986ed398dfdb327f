import Mathlib

/-!
# Outcomes of fallible code

A call returns a value, returns an error, or panics.  Errors and panics travel the
same way through a sequence of calls but are different verdicts on the code.
-/

inductive Fault where
  | error (msg : String)
  | panic (msg : String)
  deriving DecidableEq, Repr

abbrev Outcome (α : Type) := Except Fault α

namespace Outcome

variable {u : Unit} {msg : String}

variable {α β : Type}

/-- `return errors.New(msg)`. -/
def fail (msg : String) : Outcome α := .error (.error msg)

/-- `panic(msg)`. -/
def crash (msg : String) : Outcome α := .error (.panic msg)

/-- `if p { return errors.New(msg) }`. -/
def rejectIf (p : Prop) [Decidable p] (msg : String) : Outcome Unit :=
  if p then fail msg else .ok ()

/-- `if p { panic(msg) }`. -/
def crashIf (p : Prop) [Decidable p] (msg : String) : Outcome Unit :=
  if p then crash msg else .ok ()

/-- `if p { x }`. -/
def runIf (p : Prop) [Decidable p] (x : Outcome Unit) : Outcome Unit := if p then x else .ok ()

/-- `if err != nil { … }` around a call whose error is not passed on. -/
def attempt (x : Outcome α) : Outcome (Option α) :=
  match x with
  | .ok a => .ok (some a)
  | .error (.error _) => .ok none
  | .error (.panic msg) => crash msg

/-- The call came back, with a value or an error. -/
def Returns (x : Outcome α) : Prop := ∀ msg, x ≠ .error (.panic msg)

variable {x : Outcome α} {f : α → Outcome β} {b : β} {p : Prop}

@[simp] theorem ok_bind (a : α) (f : α → Outcome β) : ((.ok a : Outcome α) >>= f) = f a := rfl

@[simp] theorem bind_eq_ok :
    (x >>= f) = .ok b ↔ ∃ a, x = .ok a ∧ f a = .ok b := by
  cases x with
  | error e => simp [bind,Except.bind]
  | ok a => simp [bind,Except.bind]

theorem bind_unit_eq_ok {x : Outcome Unit} {f : Unit → Outcome β} :
    (x >>= f) = .ok b ↔ x = .ok () ∧ f () = .ok b := by
  rw [bind_eq_ok]
  exact ⟨fun ⟨_,hx,hf⟩ => ⟨hx,hf⟩,fun ⟨hx,hf⟩ => ⟨(),hx,hf⟩⟩

@[simp] theorem map_eq_ok {f : α → β} :
    (f <$> x) = .ok b ↔ ∃ a, x = .ok a ∧ f a = b := by
  cases x with
  | error e => simp [Functor.map,Except.map]
  | ok a => simp [Functor.map,Except.map]

theorem ok_pair {a a' : α} {b b' : β} (h : (.ok (a, b) : Outcome (α × β)) = .ok (a', b')) : a = a' ∧ b = b' :=
  Prod.mk.inj (Except.ok.inj h)

@[simp] theorem pure_eq_ok {a b : α} : (pure a : Outcome α) = .ok b ↔ a = b := by
  simp [pure,Except.pure]

@[simp] theorem rejectIf_eq_ok [Decidable p] :
    rejectIf p msg = .ok u ↔ ¬ p := by
  unfold rejectIf fail
  split_ifs with h <;> simp [h]

@[simp] theorem crashIf_eq_ok [Decidable p] :
    crashIf p msg = .ok u ↔ ¬ p := by
  unfold crashIf crash
  split_ifs with h <;> simp [h]

@[simp] theorem runIf_eq_ok [Decidable p] {x : Outcome Unit} :
    runIf p x = .ok u ↔ (p → x = .ok ()) := by
  unfold runIf
  split_ifs with h <;> simp [h]

@[simp] theorem fail_ne_ok {a : α} : (fail msg : Outcome α) ≠ .ok a := by
  simp [fail]

@[simp] theorem crash_ne_ok {a : α} : (crash msg : Outcome α) ≠ .ok a := by
  simp [crash]

theorem attempt_eq_some {a : α} : attempt x = .ok (some a) ↔ x = .ok a := by
  match x with
  | .ok a' => simp [attempt]
  | .error (.error msg) => simp [attempt]
  | .error (.panic msg) => simp [attempt,crash]

theorem exists_of_isOk (h : x.isOk = true) : ∃ a, x = .ok a := by
  cases x with
  | error e => cases h
  | ok a => exact ⟨a,rfl⟩

/-- A check on the result of a computation that is expected to succeed. -/
def holds (x : Outcome α) (p : α → Bool) : Bool :=
  match x with
  | .ok a => p a
  | .error _ => false

theorem exists_of_holds {p : α → Bool} (h : x.holds p = true) : ∃ a, x = .ok a ∧ p a = true := by
  cases x with
  | error e => cases h
  | ok a => exact ⟨a,rfl,h⟩

/-- A check for a computation that is expected to panic. -/
def panics (x : Outcome α) : Bool :=
  match x with
  | .error (.panic _) => true
  | _ => false

theorem exists_of_panics (h : x.panics = true) : ∃ msg, x = .error (.panic msg) := by
  unfold panics at h
  split at h
  · exact ⟨_,rfl⟩
  · cases h

theorem returns_ok (a : α) : Returns (.ok a : Outcome α) := by simp [Returns]

theorem returns_pure (a : α) : Returns (pure a : Outcome α) := returns_ok a

theorem returns_fail (msg : String) : Returns (fail msg : Outcome α) := by simp [Returns,fail]

theorem rejectIf_of_not [Decidable p] (h : ¬ p) (msg : String) : rejectIf p msg = .ok () := if_neg h

theorem returns_rejectIf (p : Prop) [Decidable p] (msg : String) : Returns (rejectIf p msg) := by
  unfold rejectIf
  split_ifs
  · exact returns_fail msg
  · exact returns_ok ()

theorem returns_runIf (p : Prop) [Decidable p] {x : Outcome Unit} (hx : Returns x) : Returns (runIf p x) := by
  unfold runIf
  split_ifs
  · exact hx
  · exact returns_ok ()

/-- A sequence of calls comes back if the first does and, after every value it can return, the
rest does. -/
theorem returns_bind_iff (hf : ∀ a, Returns (f a)) : Returns (x >>= f) ↔ Returns x := by
  cases x with
  | ok a => exact iff_of_true (hf a) (returns_ok a)
  | error fault => simp [Returns,bind,Except.bind]

theorem Returns.bind (hx : Returns x)
    (hf : ∀ a, x = .ok a → Returns (f a)) : Returns (x >>= f) := by
  cases x with
  | error e =>
    intro msg h
    exact hx msg (by simpa [Bind.bind,Except.bind] using h)
  | ok a => exact hf a rfl

theorem eq_fail_of_returns (hx : Returns x) (hno : ∀ a, x ≠ .ok a) : ∃ msg, x = fail msg := by
  match x, hx, hno with
  | .ok a, _, hno => exact absurd rfl (hno a)
  | .error (.error msg), _, _ => exact ⟨msg,rfl⟩
  | .error (.panic msg), hx, _ => exact absurd rfl (hx msg)

theorem returns_attempt (hx : Returns x) : Returns (attempt x) := by
  match x, hx with
  | .ok a, _ => exact returns_ok _
  | .error (.error _), _ => exact returns_ok _
  | .error (.panic msg), hx => exact absurd rfl (hx msg)

section Loops

variable {σ : Type}

variable {l : List α} {f : σ → α → Outcome σ} {P : List α → σ → Prop} {s st' : σ}

theorem mapM_eq_ok {f : α → Outcome β} {l' : List β} :
    l.mapM f = .ok l' ↔ List.Forall₂ (fun a b => f a = .ok b) l l' := by
  induction l generalizing l' with
  | nil =>
    rw [List.mapM_nil,pure_eq_ok,List.forall₂_nil_left_iff]
    exact eq_comm
  | cons a l ih =>
    simp only [List.mapM_cons,bind_eq_ok,pure_eq_ok,List.forall₂_cons_left_iff,ih]
    constructor
    · rintro ⟨b,hb,m,hm,rfl⟩
      exact ⟨b,m,hb,hm,rfl⟩
    · rintro ⟨b,m,hb,hm,rfl⟩
      exact ⟨b,hb,m,hm,rfl⟩

theorem returns_mapM {f : α → Outcome β} (hf : ∀ a ∈ l, Returns (f a)) : Returns (l.mapM f) := by
  induction l with
  | nil => exact returns_pure []
  | cons a l ih =>
    obtain ⟨ha,hl⟩ := List.forall_mem_cons.mp hf
    rw [List.mapM_cons]
    exact ha.bind fun b _ => (ih hl).bind fun m _ => returns_pure _

theorem forM_eq_ok {f : α → Outcome Unit} : l.forM f = .ok u ↔ ∀ a ∈ l, f a = .ok () := by
  induction l with
  | nil => exact ⟨fun _ => by simp,fun _ => rfl⟩
  | cons a l ih =>
    change (f a >>= fun _ => l.forM f) = _ ↔ _
    rw [bind_unit_eq_ok,ih,List.forall_mem_cons]

theorem returns_forM {f : α → Outcome Unit} (hf : ∀ a ∈ l, Returns (f a)) : Returns (l.forM f) := by
  induction l with
  | nil => exact returns_pure ()
  | cons a l ih =>
    obtain ⟨ha,hl⟩ := List.forall_mem_cons.mp hf
    exact ha.bind fun _ _ => ih hl

theorem returns_foldlM
    (hstep : ∀ pre a post st, l = pre ++ a :: post → P pre st → Returns (f st a) ∧ ∀ st', f st a = .ok st' → P (pre ++ [a]) st') (hinit : P [] s) : Returns (l.foldlM f s) := by
  suffices ∀ post pre st, l = pre ++ post → P pre st → Returns (post.foldlM f st) from this l [] s rfl hinit
  intro post
  induction post with
  | nil => exact fun _ st _ _ => returns_pure st
  | cons a post ih =>
    intro pre st hl hpre
    obtain ⟨hreturns,hkeeps⟩ := hstep pre a post st hl hpre
    rw [List.foldlM_cons]
    exact hreturns.bind fun st' hst' =>
      ih (pre ++ [a]) st' (by rw [hl,List.append_assoc,List.singleton_append]) (hkeeps st' hst')

/-- Runs `f` over a list with the index of each item, counted from `i`. -/
def foldIdx (f : ℕ → α → σ → Outcome σ) : List α → ℕ → σ → Outcome σ
  | [], _, st => .ok st
  | a :: as, i, st => do
      let st ← f i a st
      foldIdx f as (i+1) st

/-- A loop comes back if each pass does from where the passes before it have led, and what the
passes keep of the items behind them holds of the whole list. -/
theorem foldIdx_induct {f : ℕ → α → σ → Outcome σ}
    (hstep : ∀ pre a post st, l = pre ++ a :: post → P pre st → ∃ st', f pre.length a st = .ok st' ∧ P (pre ++ [a]) st')
    {st : σ} (hinit : P [] st) : ∃ st', foldIdx f l 0 st = .ok st' ∧ P l st' := by
  suffices ∀ post pre st, l = pre ++ post → P pre st → ∃ st', foldIdx f post pre.length st = .ok st' ∧ P l st' from
    this l [] st rfl hinit
  intro post
  induction post with
  | nil =>
    intro pre st hl hpre
    rw [List.append_nil] at hl
    exact ⟨st,rfl,hl ▸ hpre⟩
  | cons a post ih =>
    intro pre st hl hpre
    obtain ⟨st',hf,hpre'⟩ := hstep pre a post st hl hpre
    have hnext := ih (pre ++ [a]) st' (by rw [hl,List.append_assoc,List.singleton_append]) hpre'
    rw [List.length_append,List.length_singleton] at hnext
    rw [foldIdx,hf,ok_bind]
    exact hnext

theorem foldlM_eq_foldIdx (f : σ → α → Outcome σ) (l : List α) (i : ℕ) (st : σ) :
    l.foldlM f st = foldIdx (fun _ a st => f st a) l i st := by
  induction l generalizing i st with
  | nil => rfl
  | cons a l ih =>
    rw [List.foldlM_cons,foldIdx]
    exact congrArg _ (funext fun st' => ih (i+1) st')

theorem foldlM_induct
    (hstep : ∀ pre a post st, l = pre ++ a :: post → P pre st → ∃ st', f st a = .ok st' ∧ P (pre ++ [a]) st') (hinit : P [] s) : ∃ st', l.foldlM f s = .ok st' ∧ P l st' := by
  rw [foldlM_eq_foldIdx f l 0]
  exact foldIdx_induct hstep hinit

theorem foldIdx_keeps {f : ℕ → α → σ → Outcome σ}
    (hstep : ∀ pre a post st st', l = pre ++ a :: post → P pre st → f pre.length a st = .ok st' → P (pre ++ [a]) st')
    {st : σ} (hrun : foldIdx f l 0 st = .ok st') (hinit : P [] st) : P l st' := by
  suffices ∀ post pre st, l = pre ++ post → P pre st → foldIdx f post pre.length st = .ok st' → P l st' from
    this l [] st rfl hinit hrun
  intro post
  induction post with
  | nil =>
    intro pre st hl hpre hrun
    obtain rfl : st = st' := Except.ok.inj hrun
    rw [List.append_nil] at hl
    exact hl ▸ hpre
  | cons a post ih =>
    intro pre st hl hpre hrun
    obtain ⟨mid,hf,hrest⟩ := bind_eq_ok.mp hrun
    refine ih (pre ++ [a]) mid (by rw [hl,List.append_assoc,List.singleton_append]) (hstep pre a post st mid hl hpre hf) ?_
    rwa [List.length_append,List.length_singleton]

theorem foldlM_keeps
    (hstep : ∀ pre a post st st', l = pre ++ a :: post → P pre st → f st a = .ok st' → P (pre ++ [a]) st')
    {st : σ} (hrun : l.foldlM f st = .ok st') (hinit : P [] st) : P l st' := by
  rw [foldlM_eq_foldIdx f l 0] at hrun
  exact foldIdx_keeps hstep hrun hinit

theorem foldlM_simulates {τ : Type} {R : σ → τ → Prop} {g : τ → α → Outcome τ}
    (hstep : ∀ a s s' t, R s t → f s a = .ok s' → ∃ t', g t a = .ok t' ∧ R s' t') {s' : σ} {t : τ}
    (hinit : R s t) (hrun : l.foldlM f s = .ok s') : ∃ t', l.foldlM g t = .ok t' ∧ R s' t' := by
  induction l generalizing s t with
  | nil =>
    obtain rfl : s = s' := Except.ok.inj hrun
    exact ⟨t,rfl,hinit⟩
  | cons a l ih =>
    rw [List.foldlM_cons,bind_eq_ok] at hrun
    obtain ⟨mid,hmid,hrest⟩ := hrun
    obtain ⟨mid',hmid',hR⟩ := hstep a s mid t hinit hmid
    rw [List.foldlM_cons,hmid',ok_bind]
    exact ih hR hrest

end Loops

end Outcome
