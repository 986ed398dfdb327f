import QdayNode.Types.PolicyAddress
import QdayNode.Types.PolicyWitness

/-!
# Hiding parts of a policy

A part of a policy is named by its place: the positions of the sub-policies that lead to
it from the root.  Hiding a set of places does not change the address, and with a
collision-free hash two policies of one address become the same tree when some places of
each are hidden.
-/
namespace QdayNode
open ByteString

variable {p : SpendPolicy} {hidden : List ℕ → Bool}

namespace SpendPolicy

variable (c : Crypto)

def policyOpaque (p : SpendPolicy) : SpendPolicy := .opaqueHash (p.opaqueAddress c)

mutual
def hide (hidden : List ℕ → Bool) : SpendPolicy → SpendPolicy
  | .threshold n subpolicies => .threshold n (hideAll hidden 0 subpolicies)
  | .above height => .above height
  | .after t => .after t
  | .publicKey pk => .publicKey pk
  | .slhdsa pk => .slhdsa pk
  | .hash h => .hash h
  | .opaqueHash a => .opaqueHash a
  | .unlockConditions uc => .unlockConditions uc

/-- Hides places in sub-policies that are numbered from `i` on. -/
def hideAll (hidden : List ℕ → Bool) (i : ℕ) : List SpendPolicy → List SpendPolicy
  | [] => []
  | p :: ps => (if hidden [i] then policyOpaque c p else hide (fun place => hidden (i :: place)) p) :: hideAll hidden (i+1) ps
end

section Address

variable {c}

theorem hide_opaqueHash (h : ∀ a, p ≠ .opaqueHash a) (a : Address) :
    hide c hidden p ≠ .opaqueHash a := by
  cases p with
  | opaqueHash b => exact absurd rfl (h b)
  | _ => simp [hide]

mutual
theorem address_hide (hidden : List ℕ → Bool) (p : SpendPolicy) : (hide c hidden p).address c = p.address c := by
  cases p with
  | threshold n subpolicies =>
    rw [hide,address,address,opaqueAll_eq_map,opaqueAll_eq_map,opaqueAddress_hideAll hidden 0 subpolicies]
  | above height => rw [hide]
  | after t => rw [hide]
  | publicKey pk => rw [hide]
  | slhdsa pk => rw [hide]
  | hash h => rw [hide]
  | opaqueHash a => rw [hide]
  | unlockConditions uc => rw [hide]

theorem opaqueAddress_hideAll (hidden : List ℕ → Bool) (i : ℕ) (ps : List SpendPolicy) :
    ((hideAll c hidden i ps).map fun p => opaqueHash (p.opaqueAddress c)) = ps.map fun p => opaqueHash (p.opaqueAddress c) := by
  cases ps with
  | nil => rfl
  | cons p ps =>
    rw [hideAll,List.map_cons,List.map_cons,opaqueAddress_hideAll hidden (i+1) ps]
    congr 2
    by_cases hhidden : hidden [i] = true
    · rw [if_pos hhidden]
      rfl
    · rw [if_neg hhidden]
      by_cases hopaque : ∃ a, p = .opaqueHash a
      · obtain ⟨a,rfl⟩ := hopaque
        rw [hide]
      · have hshown : ∀ a, p ≠ .opaqueHash a := fun a heq => hopaque ⟨a,heq⟩
        rw [opaqueAddress_of_shown (hide_opaqueHash hshown),opaqueAddress_of_shown hshown,address_hide _ p]
end

end Address

section Converse

variable {c}

theorem forall₂_imp_mem {α β : Type*} {R R' : α → β → Prop} {l : List α} {m : List β} (h : List.Forall₂ R l m)
    (himp : ∀ a ∈ l, ∀ b ∈ m, R a b → R' a b) : List.Forall₂ R' l m := by
  induction h with
  | nil => exact .nil
  | cons hab _ ih =>
    refine .cons (himp _ List.mem_cons_self _ List.mem_cons_self hab) (ih ?_)
    intro a ha b hb
    exact himp a (List.mem_cons_of_mem _ ha) b (List.mem_cons_of_mem _ hb)

def Plainly (p : SpendPolicy) : Prop :=
  (∀ uc, ¬ Inside (.unlockConditions uc) p) ∧ ∀ t, Inside (.after t) p → t.WholeSecond

variable {n : UInt8} {ps : List SpendPolicy} {qs : List SpendPolicy}

theorem Plainly.child (h : (threshold n ps).Plainly) (hp : p ∈ ps) :
    p.Plainly :=
  ⟨fun uc hinside => h.1 uc (hinside.child hp),fun t hinside => h.2 t (hinside.child hp)⟩

/-- A child with its places hidden; the empty place stands for the child itself. -/
def hideChild (c : Crypto) (hidden : List ℕ → Bool) (p : SpendPolicy) : SpendPolicy :=
  if hidden [] then policyOpaque c p else hide c hidden p

/-- The places of child `i` from one set, those of the others from another. -/
def splice (i : ℕ) (first rest : List ℕ → Bool) : List ℕ → Bool
  | [] => false
  | j :: place => if j = i then first place else rest (j :: place)

theorem hideAll_cons (hidden : List ℕ → Bool) (i : ℕ) (p : SpendPolicy) (ps : List SpendPolicy) :
    hideAll c hidden i (p :: ps) = hideChild c (fun place => hidden (i :: place)) p :: hideAll c hidden (i+1) ps := rfl

theorem hideAll_congr {hidden' : List ℕ → Bool} {i : ℕ} (ps : List SpendPolicy)
    (h : ∀ j place, i ≤ j → hidden (j :: place) = hidden' (j :: place)) : hideAll c hidden i ps = hideAll c hidden' i ps := by
  induction ps generalizing i with
  | nil => rfl
  | cons p ps ih =>
    have hfirst : (fun place => hidden (i :: place)) = fun place => hidden' (i :: place) := by
      funext place
      exact h i place le_rfl
    rw [hideAll_cons,hideAll_cons,hfirst,ih fun j place hj => h j place (by omega)]

theorem hideAll_splice (first rest : List ℕ → Bool) (i : ℕ) (p : SpendPolicy) (ps : List SpendPolicy) :
    hideAll c (splice i first rest) i (p :: ps) = hideChild c first p :: hideAll c rest (i+1) ps := by
  have hfirst : (fun place => splice i first rest (i :: place)) = first := by
    funext place
    exact if_pos rfl
  have hrest : ∀ j place, i + 1 ≤ j → splice i first rest (j :: place) = rest (j :: place) := by
    intro j place hj
    exact if_neg (by omega)
  rw [hideAll_cons,hfirst,hideAll_congr ps hrest]

/-- Two trees become the same when some of their places are hidden. -/
def Merges (c : Crypto) (p q : SpendPolicy) : Prop := ∃ hidden hidden', hideChild c hidden p = hideChild c hidden' q

theorem hideAll_merges (h : List.Forall₂ (Merges c) ps qs) (i : ℕ) :
    ∃ hidden hidden', hideAll c hidden i ps = hideAll c hidden' i qs := by
  induction h generalizing i with
  | nil => exact ⟨fun _ => false,fun _ => false,rfl⟩
  | cons hfirst _ ih =>
    obtain ⟨first,first',hp⟩ := hfirst
    obtain ⟨rest,rest',hps⟩ := ih (i+1)
    refine ⟨splice i first rest,splice i first' rest',?_⟩
    rw [hideAll_splice,hideAll_splice,hp,hps]

theorem merges_threshold (h : List.Forall₂ (Merges c) ps qs) :
    ∃ hidden hidden', hide c hidden (.threshold n ps) = hide c hidden' (.threshold n qs) ∧ hidden [] = false ∧ hidden' [] = false := by
  obtain ⟨hidden,hidden',heq⟩ := hideAll_merges h 0
  have hkeep : ∀ (X : List ℕ → Bool) (l : List SpendPolicy),
      hideAll c (fun place => !place.isEmpty && X place) 0 l = hideAll c X 0 l :=
    fun X l => hideAll_congr l fun j place _ => rfl
  refine ⟨fun place => !place.isEmpty && hidden place,fun place => !place.isEmpty && hidden' place,?_,rfl,rfl⟩
  rw [hide,hide,hkeep,hkeep,heq]

theorem after_eq {t u : Time} (ht : t.WholeSecond) (hu : u.WholeSecond) (h : t.encode = u.encode) : t = u := by
  have happend : t.encode ++ [] = u.encode ++ [] := by rw [h]
  exact (Time.prefixCode_encode ht hu happend).1

/-- Policies that agree wherever both are shown merge when the rest is hidden. -/
theorem Agrees.merges {q : SpendPolicy} (h : Agrees c p q) (hp : p.Plainly) (hq : q.Plainly) : Merges c p q := by
  induction hsize : sizeOf p using Nat.strong_induction_on generalizing p q with
  | _ size ih =>
  cases h with
  | same p => exact ⟨fun _ => false,fun _ => false,rfl⟩
  | after h => exact ⟨fun _ => false,fun _ => false,by rw [after_eq (hp.2 _ .here) (hq.2 _ .here) h]⟩
  | hiddenLeft q => exact ⟨fun _ => false,fun _ => true,rfl⟩
  | hiddenRight p => exact ⟨fun _ => true,fun _ => false,rfl⟩
  | unlockConditions h => exact absurd .here (hp.1 _)
  | @threshold n ps qs h =>
    have hchildren : List.Forall₂ (Merges c) ps qs := by
      refine forall₂_imp_mem h fun p' hp' q' hq' hagree => ?_
      refine ih (sizeOf p') ?_ hagree (hp.child hp') (hq.child hq') rfl
      have hlt := List.sizeOf_lt_of_mem hp'
      rw [← hsize,threshold.sizeOf_spec]
      omega
    obtain ⟨hidden,hidden',heq,hroot,hroot'⟩ := merges_threshold (n := n) hchildren
    refine ⟨hidden,hidden',?_⟩
    rw [hideChild,hideChild,hroot,hroot']
    exact heq

end Converse

/-- Hiding sub-policies keeps the address; two shown policies of one address become one tree when some of their
sub-policies are hidden. -/
theorem address_iff_hidden (c : Crypto) (p : SpendPolicy) :
    (∀ hidden, (p.hide c hidden).address c = p.address c) ∧
      ∀ (S : Set Bytes) (q : SpendPolicy), Set.InjOn c.sum256 S → AddressHashed c S p → AddressHashed c S q →
        p.isOpaque = false → q.isOpaque = false → p.Plainly → q.Plainly → p.address c = q.address c →
        ∃ hidden hidden', p.hide c hidden = q.hide c hidden' := by
  refine ⟨fun hidden => address_hide hidden p,?_⟩
  intro S q hinj hp hq hshown hshown' hplain hplain' heq
  have hagree := agrees_of_address hinj hp hq heq
  cases hagree with
  | same p => exact ⟨fun _ => false,fun _ => false,rfl⟩
  | after h => exact ⟨fun _ => false,fun _ => false,by rw [after_eq (hplain.2 _ .here) (hplain'.2 _ .here) h]⟩
  | hiddenLeft q => cases hshown
  | hiddenRight p => cases hshown'
  | unlockConditions h => exact absurd .here (hplain.1 _)
  | @threshold n ps qs h =>
    have hchildren : List.Forall₂ (Merges c) ps qs :=
      forall₂_imp_mem h fun p' hp' q' hq' hagree => hagree.merges (hplain.child hp') (hplain'.child hq')
    obtain ⟨hidden,hidden',hsame,-,-⟩ := merges_threshold (n := n) hchildren
    exact ⟨hidden,hidden',hsame⟩

def sampleLeft : SpendPolicy := .threshold 1 [.publicKey default, policyOpaque sampleCrypto (.slhdsa default)]

def sampleRight : SpendPolicy := .threshold 1 [policyOpaque sampleCrypto (.publicKey default), .slhdsa default]

def sampleMessages : List Bytes :=
  [addressMessage sampleCrypto sampleLeft, addressMessage sampleCrypto (.publicKey default),
    addressMessage sampleCrypto (.slhdsa default)]

theorem address_iff_hidden_sample : sampleLeft.address sampleCrypto = sampleRight.address sampleCrypto ∧
    (sampleLeft.hide sampleCrypto fun place => place = [0]).address sampleCrypto = sampleLeft.address sampleCrypto ∧
    ∃ hidden hidden', sampleLeft.hide sampleCrypto hidden = sampleRight.hide sampleCrypto hidden' := by
  have hsame : addressMessage sampleCrypto sampleRight = addressMessage sampleCrypto sampleLeft := by decide +kernel
  have haddress : sampleLeft.address sampleCrypto = sampleRight.address sampleCrypto := by decide +kernel
  have hinj : Set.InjOn sampleCrypto.sum256 {x | x ∈ sampleMessages} := injOn_of_nodup (by decide +kernel)
  have hleft : AddressHashed sampleCrypto {x | x ∈ sampleMessages} sampleLeft :=
    ⟨List.mem_cons_self,List.mem_cons_of_mem _ List.mem_cons_self,trivial⟩
  have hright : AddressHashed sampleCrypto {x | x ∈ sampleMessages} sampleRight :=
    ⟨hsame ▸ List.mem_cons_self,List.mem_cons_of_mem _ (List.mem_cons_of_mem _ List.mem_cons_self),trivial⟩
  have hplain : ∀ pks : List SpendPolicy, (∀ q ∈ pks, q = .publicKey default ∨ q = .slhdsa default ∨ q.isOpaque = true) →
      (threshold 1 pks).Plainly := by
    intro pks hpks
    constructor
    · intro uc hinside
      cases hinside with
      | child hq hbelow => rcases hpks _ hq with rfl | rfl | hopaque <;> cases hbelow <;> cases hopaque
    · intro t hinside
      cases hinside with
      | child hq hbelow => rcases hpks _ hq with rfl | rfl | hopaque <;> cases hbelow <;> cases hopaque
  obtain ⟨hhide,hconverse⟩ := address_iff_hidden sampleCrypto sampleLeft
  refine ⟨haddress,hhide _,?_⟩
  exact hconverse _ sampleRight hinj hleft hright rfl rfl (hplain _ (by simp [policyOpaque,isOpaque]))
    (hplain _ (by simp [policyOpaque,isOpaque])) haddress

end SpendPolicy

end QdayNode
