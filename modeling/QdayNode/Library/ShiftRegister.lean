import Mathlib

/-!
# Linear shift registers

A register that takes one symbol at a time: its content moves by a map that is linear over
exclusive or, and the symbol is added.  The difference two texts leave in the register
depends on the difference of the texts alone, so which errors a checksum of this kind
detects is a question about the map and single symbols.
-/

/-- A register of `w` bits and the map by which its content moves. -/
structure ShiftRegister (w : ℕ) where
  step : BitVec w → BitVec w
  step_xor : ∀ x y, step (x ^^^ y) = step x ^^^ step y

namespace ShiftRegister

variable {w : ℕ} (r : ShiftRegister w)

def run (x : BitVec w) (vs : List (BitVec w)) : BitVec w := vs.foldl (fun s v => r.step s ^^^ v) x

@[simp] theorem run_nil (x : BitVec w) : r.run x [] = x := rfl

@[simp] theorem run_cons (x v : BitVec w) (vs : List (BitVec w)) : r.run x (v :: vs) = r.run (r.step x ^^^ v) vs := rfl

theorem run_append (x : BitVec w) (us vs : List (BitVec w)) : r.run x (us ++ vs) = r.run (r.run x us) vs := List.foldl_append

theorem iterate_xor (n : ℕ) (x y : BitVec w) : r.step^[n] (x ^^^ y) = r.step^[n] x ^^^ r.step^[n] y := by
  induction n generalizing x y with
  | zero => rfl
  | succ n ih => rw [Function.iterate_succ_apply,r.step_xor,ih,← Function.iterate_succ_apply,← Function.iterate_succ_apply]

theorem run_xor (x y : BitVec w) (vs : List (BitVec w)) : r.run (x ^^^ y) vs = r.run x vs ^^^ r.step^[vs.length] y := by
  induction vs generalizing x y with
  | nil => rfl
  | cons v vs ih =>
    have hmove : r.step x ^^^ r.step y ^^^ v = (r.step x ^^^ v) ^^^ r.step y := by
      rw [BitVec.xor_assoc,BitVec.xor_comm (r.step y),← BitVec.xor_assoc]
    rw [run_cons,run_cons,r.step_xor,hmove,ih,List.length_cons,Function.iterate_succ_apply]

theorem run_set (x : BitVec w) (vs : List (BitVec w)) {i : ℕ} (hi : i < vs.length) (v : BitVec w) :
    r.run x (vs.set i v) = r.run x vs ^^^ r.step^[vs.length - 1 - i] (vs[i] ^^^ v) := by
  have hsplit : vs = vs.take i ++ vs[i] :: vs.drop (i + 1) := by
    rw [← List.drop_eq_getElem_cons hi,List.take_append_drop]
  have hset : vs.set i v = vs.take i ++ v :: vs.drop (i + 1) := List.set_eq_take_append_cons_drop.trans (if_pos hi)
  have hlength : (vs.drop (i + 1)).length = vs.length - 1 - i := by
    rw [List.length_drop]
    omega
  have hchange : ∀ s : BitVec w, s ^^^ v = (s ^^^ vs[i]) ^^^ (vs[i] ^^^ v) := by
    intro s
    rw [BitVec.xor_assoc,← BitVec.xor_assoc vs[i],BitVec.xor_self,BitVec.zero_xor]
  have hold : r.run x vs = r.run (r.step (r.run x (vs.take i)) ^^^ vs[i]) (vs.drop (i + 1)) := by
    rw [← run_cons,← run_append,← hsplit]
  rw [hset,run_append,run_cons,hchange,run_xor,hlength,hold]

section Detection

variable {S E : Set (BitVec w)} {n : ℕ}

/-- Differences of symbols stay apart while they move through a text of length `n`.  The contents
of the register are those in `S`. -/
structure Separates (S E : Set (BitVec w)) (n : ℕ) : Prop where
  xor_mem : ∀ x ∈ S, ∀ y ∈ S, x ^^^ y ∈ S
  step_mem : ∀ x ∈ S, r.step x ∈ S
  kernel : ∀ x ∈ S, r.step x = 0 → x = 0
  symbols : E ⊆ S
  nonzero : 0 ∉ E
  apart : ∀ e ∈ E, ∀ d, 0 < d → d < n → r.step^[d] e ∉ E

namespace Separates

variable {r}

theorem iterate_mem (hr : r.Separates S E n) {x : BitVec w} (hx : x ∈ S) (p : ℕ) : r.step^[p] x ∈ S := by
  induction p with
  | zero => exact hx
  | succ p ih =>
    rw [Function.iterate_succ_apply']
    exact hr.step_mem _ ih

theorem iterate_kernel (hr : r.Separates S E n) {x : BitVec w} (hx : x ∈ S) {p : ℕ} (h : r.step^[p] x = 0) : x = 0 := by
  induction p generalizing x with
  | zero => exact h
  | succ p ih =>
    rw [Function.iterate_succ_apply] at h
    exact hr.kernel x hx (ih (hr.step_mem x hx) h)

theorem single (hr : r.Separates S E n) {e : BitVec w} (he : e ∈ E) (p : ℕ) : r.step^[p] e ≠ 0 := by
  intro h
  have hzero := hr.iterate_kernel (hr.symbols he) h
  exact hr.nonzero (hzero ▸ he)

theorem pair (hr : r.Separates S E n) {e f : BitVec w} (he : e ∈ E) (hf : f ∈ E) {p q : ℕ} (hp : p < n) (hq : q < n)
    (hpq : p ≠ q) : r.step^[p] e ≠ r.step^[q] f := by
  wlog hlt : p < q generalizing p q e f
  · exact (this hf he hq hp hpq.symm (by omega)).symm
  intro h
  obtain ⟨d,rfl⟩ := Nat.exists_eq_add_of_lt hlt
  have hmoved := hr.iterate_mem (hr.symbols hf) (d + 1)
  have hsum : r.step^[p] (e ^^^ r.step^[d + 1] f) = 0 := by
    rw [iterate_xor,h,Nat.add_assoc,Function.iterate_add_apply,BitVec.xor_self]
    rfl
  have heq := BitVec.xor_eq_zero_iff.mp (hr.iterate_kernel (hr.xor_mem e (hr.symbols he) _ hmoved) hsum)
  exact hr.apart f hf (d + 1) (by omega) (by omega) (heq ▸ he)

end Separates

end Detection

end ShiftRegister
