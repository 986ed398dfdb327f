import QdayNode.Library.ByteString

/-!
# Numerals with the most significant digit first

A list of digits stands for a number in a base.  Numerals of a fixed length and the numbers
below a power of the base are in bijection, which is how a text is regrouped: symbols of
one width are read as a number and that number is written in symbols of another.
-/
namespace Radix

def value (B : ℕ) (l : List ℕ) : ℕ := Nat.ofDigits B l.reverse

def digits (B : ℕ) : ℕ → ℕ → List ℕ
  | 0, _ => []
  | n+1, x => digits B n (x / B) ++ [x % B]

section Basics

variable {B : ℕ}

@[simp] theorem value_nil : value B [] = 0 := rfl

@[simp] theorem value_singleton (d : ℕ) : value B [d] = d := by
  rw [value,List.reverse_singleton,Nat.ofDigits_singleton]

theorem value_append (l r : List ℕ) : value B (l ++ r) = value B l * B^r.length + value B r := by
  rw [value,List.reverse_append,Nat.ofDigits_append,List.length_reverse,Nat.add_comm,Nat.mul_comm]
  rfl

theorem value_concat (l : List ℕ) (d : ℕ) : value B (l ++ [d]) = value B l * B + d := by
  rw [value_append,value_singleton,List.length_singleton,pow_one]

theorem value_cons (d : ℕ) (l : List ℕ) : value B (d :: l) = d * B^l.length + value B l := by
  rw [← List.singleton_append,value_append,value_singleton]

theorem value_replicate_zero (n : ℕ) : value B (List.replicate n 0) = 0 := by
  rw [value,List.reverse_replicate,Nat.ofDigits_replicate_zero]

variable {l : List ℕ} {n x i : ℕ}

theorem value_lt (hl : ∀ d ∈ l, d < B) : value B l < B^l.length := by
  induction l using List.reverseRecOn with
  | nil => exact Nat.one_pos
  | append_singleton l d ih =>
    rw [List.forall_mem_append,List.forall_mem_singleton] at hl
    have hlead := Nat.mul_le_mul_right B (ih hl.1)
    have hlast := hl.2
    rw [value_concat,List.length_append,List.length_singleton,pow_succ]
    rw [Nat.succ_mul] at hlead
    omega

@[simp] theorem length_digits (n x : ℕ) : (digits B n x).length = n := by
  induction n generalizing x with
  | zero => rfl
  | succ n ih => rw [digits,List.length_append,ih,List.length_singleton]

theorem digits_lt (hB : 0 < B) : ∀ d ∈ digits B n x, d < B := by
  induction n generalizing x with
  | zero =>
    intro d hd
    cases hd
  | succ n ih =>
    rw [digits,List.forall_mem_append,List.forall_mem_singleton]
    exact ⟨ih,Nat.mod_lt x hB⟩

theorem value_digits (n x : ℕ) : value B (digits B n x) = x % B^n := by
  induction n generalizing x with
  | zero => rw [digits,value_nil,pow_zero,Nat.mod_one]
  | succ n ih => rw [digits,value_concat,ih,pow_succ',Nat.mod_mul,Nat.mul_comm,Nat.add_comm]

theorem value_digits_of_lt (h : x < B^n) : value B (digits B n x) = x := by
  rw [value_digits,Nat.mod_eq_of_lt h]

theorem digits_value (hl : ∀ d ∈ l, d < B) : digits B l.length (value B l) = l := by
  induction l using List.reverseRecOn with
  | nil => rfl
  | append_singleton l d ih =>
    rw [List.forall_mem_append,List.forall_mem_singleton] at hl
    have hpos : 0 < B := Nat.zero_lt_of_lt hl.2
    rw [List.length_append,List.length_singleton,digits,value_concat,Nat.mul_comm,Nat.mul_add_div hpos,
      Nat.div_eq_of_lt hl.2,Nat.add_zero,ih hl.1,Nat.mul_add_mod,Nat.mod_eq_of_lt hl.2]

theorem digits_add (m n x : ℕ) : digits B (m + n) x = digits B m (x / B^n) ++ digits B n x := by
  induction n generalizing x with
  | zero => rw [Nat.add_zero,pow_zero,Nat.div_one,digits,List.append_nil]
  | succ n ih => rw [← Nat.add_assoc,digits,ih,digits,List.append_assoc,Nat.div_div_eq_div_mul,pow_succ']

theorem digits_cons (n x : ℕ) : digits B (n + 1) x = x / B^n % B :: digits B n x := by
  rw [Nat.add_comm,digits_add]
  rfl

theorem getElem_digits (hi : i < (digits B n x).length) : (digits B n x)[i] = x / B^(n - 1 - i) % B := by
  induction n generalizing x with
  | zero => cases hi
  | succ n ih =>
    rw [length_digits] at hi
    rcases Nat.lt_or_ge i n with hlt | hge
    · have hstep : n + 1 - 1 - i = (n - 1 - i) + 1 := by omega
      have hfront : i < (digits B n (x / B)).length := by rwa [length_digits]
      simp only [digits]
      rw [List.getElem_append_left hfront,ih hfront,Nat.div_div_eq_div_mul,hstep,pow_succ']
    · obtain rfl : i = n := by omega
      simp only [digits]
      rw [List.getElem_append_right (by rw [length_digits]),Nat.add_sub_cancel,Nat.sub_self,pow_zero,Nat.div_one]
      exact List.getElem_singleton _

theorem getElem_eq_div (hl : ∀ d ∈ l, d < B) (hi : i < l.length) :
    l[i] = value B l / B^(l.length - 1 - i) % B := by
  have hget : (digits B l.length (value B l))[i]? = l[i]? := by rw [digits_value hl]
  rw [List.getElem?_eq_getElem hi,List.getElem?_eq_getElem (by rwa [length_digits]),Option.some.injEq,getElem_digits] at hget
  exact hget.symm

theorem value_set (l : List ℕ) (hi : i < l.length) (d : ℕ) :
    value B (l.set i d) + l[i] * B^(l.length - 1 - i) = value B l + d * B^(l.length - 1 - i) := by
  have hsplit : value B l = value B (l.take i ++ l[i] :: l.drop (i + 1)) := by
    rw [← List.drop_eq_getElem_cons hi,List.take_append_drop]
  have hset : l.set i d = l.take i ++ d :: l.drop (i + 1) := List.set_eq_take_append_cons_drop.trans (if_pos hi)
  have hlength : (l.drop (i + 1)).length = l.length - 1 - i := by
    rw [List.length_drop]
    omega
  rw [hset,hsplit,value_append,value_append,value_cons,value_cons,List.length_cons,List.length_cons,hlength]
  ring

end Basics

section Symbols

open ByteString

def symbolsValue (n : ℕ) (data : Bytes) : ℕ := value (2^n) (data.map UInt8.toNat)

def symbolsOf (n k x : ℕ) : Bytes := (digits (2^n) k x).map UInt8.ofNat

theorem bytes_lt (b : Bytes) : ∀ v ∈ b, v.toNat < 2^8 := fun v _ => v.toNat_lt

@[simp] theorem length_symbolsOf (n k x : ℕ) : (symbolsOf n k x).length = k := by
  rw [symbolsOf,List.length_map,length_digits]

theorem symbolsOf_succ (n k x : ℕ) : symbolsOf n (k + 1) x = symbolsOf n k (x / 2^n) ++ [UInt8.ofNat (x % 2^n)] := by
  rw [symbolsOf,digits,List.map_append,List.map_singleton]
  rfl

theorem symbolsValue_concat (n : ℕ) (data : Bytes) (v : UInt8) :
    symbolsValue n (data ++ [v]) = symbolsValue n data * 2^n + v.toNat := by
  rw [symbolsValue,List.map_append,List.map_singleton,value_concat]
  rfl

variable {n : ℕ} {data : Bytes} {k x : ℕ}

theorem symbolsValue_lt (h : ∀ v ∈ data, v.toNat < 2^n) : symbolsValue n data < 2^(n * data.length) := by
  have hlt := value_lt (List.forall_mem_map.mpr h)
  rwa [List.length_map,← pow_mul] at hlt

theorem toNat_symbolsOf (hn : n ≤ 8) (k x : ℕ) : (symbolsOf n k x).map UInt8.toNat = digits (2^n) k x := by
  have hbyte : ∀ d ∈ digits (2^n) k x, (UInt8.toNat ∘ UInt8.ofNat) d = id d := by
    intro d hd
    have hlt := digits_lt (Nat.two_pow_pos n) d hd
    exact UInt8.toNat_ofNat_of_lt' (hlt.trans_le (Nat.pow_le_pow_right (by decide) hn))
  rw [symbolsOf,List.map_map,List.map_congr_left hbyte,List.map_id]

theorem symbolsOf_lt (hn : n ≤ 8) : ∀ v ∈ symbolsOf n k x, v.toNat < 2^n := by
  intro v hv
  have hdigit := digits_lt (Nat.two_pow_pos n) v.toNat (toNat_symbolsOf hn k x ▸ List.mem_map_of_mem hv)
  exact hdigit

theorem symbolsValue_symbolsOf (hn : n ≤ 8) (hx : x < 2^(n * k)) : symbolsValue n (symbolsOf n k x) = x := by
  rw [symbolsValue,toNat_symbolsOf hn,value_digits_of_lt (by rwa [← pow_mul])]

theorem symbolsOf_symbolsValue (h : ∀ v ∈ data, v.toNat < 2^n) :
    symbolsOf n data.length (symbolsValue n data) = data := by
  have hdigits := digits_value (List.forall_mem_map.mpr h)
  rw [List.length_map] at hdigits
  rw [symbolsOf,symbolsValue,hdigits,List.map_map]
  exact (List.map_congr_left fun v _ => UInt8.ofNat_toNat).trans (List.map_id data)

theorem toNat_getD_eq_div (h : ∀ v ∈ data, v.toNat < 2^n) (hk : k < data.length) :
    (data.getD k 0).toNat = symbolsValue n data / (2^n)^(data.length - 1 - k) % 2^n := by
  have hlength : (data.map UInt8.toNat).length = data.length := List.length_map _
  have hdigit := getElem_eq_div (List.forall_mem_map.mpr h) (hlength.symm ▸ hk)
  simp only [List.getElem_map,hlength] at hdigit
  rw [List.getD_eq_getElem _ _ hk,hdigit]
  rfl

theorem symbolsValue_set (hk : k < data.length) (v : UInt8) :
    symbolsValue n (data.set k v) + (data.getD k 0).toNat * (2^n)^(data.length - 1 - k) =
      symbolsValue n data + v.toNat * (2^n)^(data.length - 1 - k) := by
  have hlength : (data.map UInt8.toNat).length = data.length := List.length_map _
  have hset := value_set (B := 2^n) (data.map UInt8.toNat) (hlength.symm ▸ hk) v.toNat
  simp only [List.getElem_map,hlength] at hset
  rw [List.getD_eq_getElem _ _ hk,symbolsValue,List.map_set]
  exact hset

end Symbols

end Radix
