import QdayNode.Types.Policy

/-!
# What an address commits to

A policy can be shown in part: a sub-policy may be replaced by its opaque hash, and the
address stays the same.  With a collision-free hash that is all the freedom there is:
two policies with one address agree wherever both are shown.
-/
namespace QdayNode
open ByteString

namespace SpendPolicy

variable (c : Crypto)

def opaqueAddress : SpendPolicy → Address
  | .opaqueHash a => a
  | p => p.address c

theorem opaqueAll_eq_map (ps : List SpendPolicy) :
    opaqueAll c ps = ps.map fun p => .opaqueHash (p.opaqueAddress c) := by
  induction ps with
  | nil => rfl
  | cons p ps ih => cases p <;> simp [opaqueAll,opaqueAddress,ih]

/-- What is hashed for the address of a policy other than unlock conditions. -/
def addressMessage : SpendPolicy → Bytes
  | .threshold n subpolicies => Crypto.distinguisher "address" ++ encode (.threshold n (opaqueAll c subpolicies))
  | p => Crypto.distinguisher "address" ++ encode p

/-- The string hashed last for the root of unlock conditions is a pair of nodes. -/
def UnlocksHashed (S : Set Bytes) (uc : UnlockConditions) : Prop :=
  ∃ l r : Hash256, uc.root c = c.sumPair l r ∧ 1 :: (l.val ++ r.val) ∈ S

mutual
/-- The strings hashed for the address of a policy and of its sub-policies are in `S`. -/
def AddressHashed (S : Set Bytes) : SpendPolicy → Prop
  | .unlockConditions uc => UnlocksHashed c S uc
  | .threshold n subpolicies => addressMessage c (.threshold n subpolicies) ∈ S ∧ AllHashed S subpolicies
  | .above height => addressMessage c (.above height) ∈ S
  | .after t => addressMessage c (.after t) ∈ S
  | .publicKey pk => addressMessage c (.publicKey pk) ∈ S
  | .hash h => addressMessage c (.hash h) ∈ S
  | .opaqueHash a => addressMessage c (.opaqueHash a) ∈ S
  | .slhdsa pk => addressMessage c (.slhdsa pk) ∈ S

/-- Nothing is hashed for a sub-policy that is hidden. -/
def AllHashed (S : Set Bytes) : List SpendPolicy → Prop
  | [] => True
  | .opaqueHash _ :: ps => AllHashed S ps
  | p :: ps => AddressHashed S p ∧ AllHashed S ps
end

/-- Two policies are the same wherever both are shown. -/
inductive Agrees : SpendPolicy → SpendPolicy → Prop where
  | same (p : SpendPolicy) : Agrees p p
  | after {t u : Time} (h : t.encode = u.encode) : Agrees (.after t) (.after u)
  | hiddenLeft (q : SpendPolicy) : Agrees (.opaqueHash (q.opaqueAddress c)) q
  | hiddenRight (p : SpendPolicy) : Agrees p (.opaqueHash (p.opaqueAddress c))
  | threshold {n : UInt8} {ps qs : List SpendPolicy} (h : List.Forall₂ Agrees ps qs) :
      Agrees (.threshold n ps) (.threshold n qs)
  | unlockConditions {uc uc' : UnlockConditions} (h : uc.root c = uc'.root c) :
      Agrees (.unlockConditions uc) (.unlockConditions uc')

section Binding

variable {c} {S : Set Bytes}

variable {ps : List SpendPolicy} {p q : SpendPolicy}

theorem AllHashed.mem (h : AllHashed c S ps) (hp : p ∈ ps)
    (hshown : ∀ a, p ≠ .opaqueHash a) : AddressHashed c S p := by
  induction ps with
  | nil => cases hp
  | cons q ps ih =>
    rcases List.mem_cons.mp hp with rfl | hp
    · cases p with
      | opaqueHash a => exact absurd rfl (hshown a)
      | _ => exact h.1
    · refine ih ?_ hp
      cases q with
      | opaqueHash a => exact h
      | _ => exact h.2

theorem encodePolicies_opaqueAll (ps : List SpendPolicy) :
    encodePolicies (opaqueAll c ps) = (ps.map (opaqueAddress c)).flatMap fun a => 6 :: a.val := by
  rw [opaqueAll_eq_map]
  induction ps with
  | nil => rfl
  | cons p ps ih => simp [encodePolicies,encodePolicy,ih]

theorem opaqueAddresses_inj {qs : List SpendPolicy}
    (h : encodePolicies (opaqueAll c ps) = encodePolicies (opaqueAll c qs)) :
    ps.map (opaqueAddress c) = qs.map (opaqueAddress c) := by
  rw [encodePolicies_opaqueAll,encodePolicies_opaqueAll] at h
  have hcode : PrefixCode (fun a : Address => (6 : UInt8) :: a.val) := by
    refine prefixCode_of_length (n := 33) (fun a => by simp) ?_
    intro a b hab
    exact Subtype.ext (List.cons.inj hab).2
  have hlength : ∀ l : List Address, (l.flatMap fun a => (6 : UInt8) :: a.val).length = 33 * l.length := by
    intro l
    induction l with
    | nil => rfl
    | cons a l ih => rw [List.flatMap_cons,List.length_append,ih,List.length_cons,List.length_cons,a.property]; omega
  have hcount := congrArg List.length h
  rw [hlength,hlength] at hcount
  have happend := congrArg (· ++ ([] : Bytes)) h
  exact (hcode.flatMap (fun _ _ => trivial) (fun _ _ => trivial) (by omega) happend).1

theorem forall₂_of_map_eq {α β : Type*} {f : α → β} {R : α → α → Prop} {l m : List α} (h : l.map f = m.map f)
    (hR : ∀ a ∈ l, ∀ b ∈ m, f a = f b → R a b) : List.Forall₂ R l m := by
  induction l generalizing m with
  | nil =>
    obtain rfl : m = [] := List.map_eq_nil_iff.mp h.symm
    exact List.Forall₂.nil
  | cons a l ih =>
    cases m with
    | nil => cases h
    | cons b m =>
      rw [List.map_cons,List.map_cons,List.cons.injEq] at h
      refine List.Forall₂.cons (hR a List.mem_cons_self b List.mem_cons_self h.1) (ih h.2 ?_)
      intro x hx y hy
      exact hR x (List.mem_cons_of_mem _ hx) y (List.mem_cons_of_mem _ hy)

/-- A policy whose address is the hash of its encoding. -/
def Plain (p : SpendPolicy) : Prop := ∀ uc, p ≠ .unlockConditions uc

theorem Plain.address_eq (hp : p.Plain) : p.address c = c.sum256 (addressMessage c p) := by
  cases p with
  | unlockConditions uc => exact absurd rfl (hp uc)
  | _ => simp only [address,addressMessage]

/-- The tag after the version tells the kinds of policies apart. -/
theorem agrees_of_message (hp : p.Plain) (h : addressMessage c p = addressMessage c q)
    (hchildren : ∀ n ps qs, p = .threshold n ps → q = .threshold n qs →
      ps.map (opaqueAddress c) = qs.map (opaqueAddress c) → List.Forall₂ (Agrees c) ps qs) : Agrees c p q := by
  cases p with
  | unlockConditions uc => exact absurd rfl (hp uc)
  | above height =>
    cases q with
    | above height' =>
      simp only [addressMessage,encode,encodePolicy,List.append_cancel_left_eq,List.cons.injEq,true_and] at h
      rw [encodeUint64_injective h]
      exact .same _
    | _ => simp [addressMessage,encode,encodePolicy] at h
  | after t =>
    cases q with
    | after u =>
      simp only [addressMessage,encode,encodePolicy,List.append_cancel_left_eq,List.cons.injEq,true_and] at h
      exact .after h
    | _ => simp [addressMessage,encode,encodePolicy] at h
  | publicKey pk =>
    cases q with
    | publicKey pk' =>
      simp only [addressMessage,encode,encodePolicy,List.append_cancel_left_eq,List.cons.injEq,true_and] at h
      rw [Subtype.ext h]
      exact .same _
    | _ => simp [addressMessage,encode,encodePolicy] at h
  | slhdsa pk =>
    cases q with
    | slhdsa pk' =>
      simp only [addressMessage,encode,encodePolicy,List.append_cancel_left_eq,List.cons.injEq,true_and] at h
      rw [Subtype.ext h]
      exact .same _
    | _ => simp [addressMessage,encode,encodePolicy] at h
  | hash x =>
    cases q with
    | hash y =>
      simp only [addressMessage,encode,encodePolicy,List.append_cancel_left_eq,List.cons.injEq,true_and] at h
      rw [Subtype.ext h]
      exact .same _
    | _ => simp [addressMessage,encode,encodePolicy] at h
  | opaqueHash a =>
    cases q with
    | opaqueHash b =>
      simp only [addressMessage,encode,encodePolicy,List.append_cancel_left_eq,List.cons.injEq,true_and] at h
      rw [Subtype.ext h]
      exact .same _
    | _ => simp [addressMessage,encode,encodePolicy] at h
  | threshold n ps =>
    cases q with
    | threshold m qs =>
      simp only [addressMessage,encode,encodePolicy,List.append_cancel_left_eq,List.cons.injEq,true_and] at h
      obtain ⟨rfl,-,h⟩ := h
      exact .threshold (hchildren n ps qs rfl rfl (opaqueAddresses_inj h))
    | _ => simp [addressMessage,encode,encodePolicy] at h

theorem Plain.hashed (hp : p.Plain) (h : AddressHashed c S p) : addressMessage c p ∈ S := by
  cases p with
  | unlockConditions uc => exact absurd rfl (hp uc)
  | threshold n ps => exact h.1
  | _ => exact h

theorem Plain.ne_unlockConditions (hinj : Set.InjOn c.sum256 S) {uc : UnlockConditions} (hp : p.Plain)
    (h : AddressHashed c S p) (huc : UnlocksHashed c S uc) : p.address c ≠ uc.root c := by
  intro heq
  obtain ⟨l,r,hroot,hmem⟩ := huc
  rw [hp.address_eq,hroot] at heq
  have hmessage := hinj (hp.hashed h) hmem heq
  cases p <;> simp [addressMessage,Crypto.distinguisher,ascii] at hmessage

theorem opaqueAddress_of_shown (hp : ∀ a, p ≠ .opaqueHash a) : p.opaqueAddress c = p.address c := by
  cases p with
  | opaqueHash a => exact absurd rfl (hp a)
  | _ => rfl

theorem agrees_of_children (hinj : Set.InjOn c.sum256 S) (hp : AddressHashed c S p)
    (hq : AddressHashed c S q) (h : p.address c = q.address c)
    (hchildren : ∀ n ps qs, p = .threshold n ps → q = .threshold n qs →
      ps.map (opaqueAddress c) = qs.map (opaqueAddress c) → List.Forall₂ (Agrees c) ps qs) : Agrees c p q := by
  by_cases hpu : ∃ uc, p = .unlockConditions uc
  · obtain ⟨uc,rfl⟩ := hpu
    by_cases hqu : ∃ uc', q = .unlockConditions uc'
    · obtain ⟨uc',rfl⟩ := hqu
      exact .unlockConditions h
    · have hplain : q.Plain := fun uc' heq => hqu ⟨uc',heq⟩
      exact absurd h.symm (hplain.ne_unlockConditions hinj hq hp)
  · have hplain : p.Plain := fun uc heq => hpu ⟨uc,heq⟩
    by_cases hqu : ∃ uc', q = .unlockConditions uc'
    · obtain ⟨uc',rfl⟩ := hqu
      exact absurd h (hplain.ne_unlockConditions hinj hp hq)
    · have hplain' : q.Plain := fun uc' heq => hqu ⟨uc',heq⟩
      rw [hplain.address_eq,hplain'.address_eq] at h
      exact agrees_of_message hplain (hinj (hplain.hashed hp) (hplain'.hashed hq) h) hchildren

theorem agrees_of_opaqueAddress (hinj : Set.InjOn c.sum256 S) (p q : SpendPolicy)
    (hp : (∀ a, p ≠ .opaqueHash a) → AddressHashed c S p) (hq : (∀ a, q ≠ .opaqueHash a) → AddressHashed c S q)
    (h : p.opaqueAddress c = q.opaqueAddress c) : Agrees c p q := by
  by_cases hpo : ∃ a, p = .opaqueHash a
  · obtain ⟨a,rfl⟩ := hpo
    obtain rfl : a = q.opaqueAddress c := h
    exact .hiddenLeft q
  by_cases hqo : ∃ a, q = .opaqueHash a
  · obtain ⟨a,rfl⟩ := hqo
    obtain rfl : p.opaqueAddress c = a := h
    exact .hiddenRight p
  have hps : ∀ a, p ≠ .opaqueHash a := fun a heq => hpo ⟨a,heq⟩
  have hqs : ∀ a, q ≠ .opaqueHash a := fun a heq => hqo ⟨a,heq⟩
  rw [opaqueAddress_of_shown hps,opaqueAddress_of_shown hqs] at h
  refine agrees_of_children hinj (hp hps) (hq hqs) h ?_
  intro n ps qs hpe hqe hmap
  have hchildren : AllHashed c S ps := (hpe ▸ hp hps : AddressHashed c S (.threshold n ps)).2
  have hchildren' : AllHashed c S qs := (hqe ▸ hq hqs : AddressHashed c S (.threshold n qs)).2
  refine forall₂_of_map_eq hmap fun p' hp' q' hq' heq => ?_
  exact agrees_of_opaqueAddress hinj p' q' (hchildren.mem hp') (hchildren'.mem hq') heq
termination_by sizeOf p
decreasing_by
  have hlt := List.sizeOf_lt_of_mem hp'
  rw [hpe, threshold.sizeOf_spec]
  omega

theorem agrees_of_address (hinj : Set.InjOn c.sum256 S) (hp : AddressHashed c S p)
    (hq : AddressHashed c S q) (h : p.address c = q.address c) : Agrees c p q := by
  refine agrees_of_children hinj hp hq h ?_
  rintro n ps qs rfl rfl hmap
  refine forall₂_of_map_eq hmap fun p' hp' q' hq' heq => ?_
  exact agrees_of_opaqueAddress hinj p' q' (hp.2.mem hp') (hq.2.mem hq') heq

end Binding

end SpendPolicy

end QdayNode
