import QdayNode.Library.ByteString

/-!
# JSON texts of strings and lists

Strings of printable ASCII characters, escaped as `encoding/json` does it, and lists.  What was
written can be read back from the front of any text, so that a rendering built from these pieces
determines its parts.
-/
namespace JsonText
open ByteString

/-- A character inside a string: quotes and backslashes are escaped, and so are the three
characters with a meaning in HTML. -/
def escape (b : UInt8) : Bytes :=
  if b = 34 then [92, 34]
  else if b = 92 then [92, 92]
  else if b = 60 then [92, 117, 48, 48, 51, 99]
  else if b = 62 then [92, 117, 48, 48, 51, 101]
  else if b = 38 then [92, 117, 48, 48, 50, 54]
  else [b]

def string (s : Bytes) : Bytes := 34 :: (s.flatMap escape ++ [34])

def key (name : Bytes) : Bytes := string name ++ [58]

def listRest {α : Type*} (enc : α → Bytes) : List α → Bytes
  | [] => [93]
  | a :: l => 44 :: (enc a ++ listRest enc l)

def list {α : Type*} (enc : α → Bytes) : List α → Bytes
  | [] => [91, 93]
  | a :: l => 91 :: (enc a ++ listRest enc l)

theorem prefixCode_escape : PrefixCode escape := by
  intro a b r r' _ _ heq
  unfold escape at heq
  split_ifs at heq <;> simp_all

theorem escape_head (b : UInt8) (r : Bytes) : ∀ t, escape b ++ r ≠ 34 :: t := by
  intro t heq
  unfold escape at heq
  split_ifs at heq <;> simp_all

theorem prefixCode_string : PrefixCode string := by
  intro s t r r' _ _ heq
  simp only [string,List.cons_append,List.append_assoc,List.nil_append,List.cons.injEq,true_and] at heq
  induction s generalizing t with
  | nil =>
    cases t with
    | nil => exact ⟨rfl,(List.cons.inj heq).2⟩
    | cons b t =>
      rw [List.flatMap_cons,List.append_assoc] at heq
      exact (escape_head b _ _ heq.symm).elim
  | cons a s ih =>
    rw [List.flatMap_cons,List.append_assoc] at heq
    cases t with
    | nil => exact (escape_head a _ _ heq).elim
    | cons b t =>
      rw [List.flatMap_cons,List.append_assoc] at heq
      obtain ⟨rfl,hrest⟩ := prefixCode_escape.apply heq
      obtain ⟨rfl,hr⟩ := ih hrest
      exact ⟨rfl,hr⟩

section Lists

variable {α : Type*} {enc : α → Bytes}

theorem prefixCode_listRest (h : PrefixCode enc) : PrefixCode (listRest enc) := by
  intro l m r r' _ _ heq
  induction l generalizing m with
  | nil =>
    cases m with
    | nil => exact ⟨rfl,(List.cons.inj heq).2⟩
    | cons b m => exact absurd (List.cons.inj heq).1 (by decide)
  | cons a l ih =>
    cases m with
    | nil => exact absurd (List.cons.inj heq).1 (by decide)
    | cons b m =>
      simp only [listRest,List.cons_append,List.append_assoc,List.cons.injEq,true_and] at heq
      obtain ⟨rfl,hrest⟩ := h.apply heq
      obtain ⟨rfl,hr⟩ := ih hrest
      exact ⟨rfl,hr⟩

theorem prefixCode_list (h : PrefixCode enc) (hstart : ∀ a r t, enc a ++ r ≠ 93 :: t) : PrefixCode (list enc) := by
  intro l m r r' _ _ heq
  cases l with
  | nil =>
    cases m with
    | nil => exact ⟨rfl,(List.cons.inj (List.cons.inj heq).2).2⟩
    | cons b m =>
      simp only [list,List.cons_append,List.append_assoc,List.nil_append,List.cons.injEq,true_and] at heq
      exact (hstart b _ _ heq.symm).elim
  | cons a l =>
    cases m with
    | nil =>
      simp only [list,List.cons_append,List.append_assoc,List.nil_append,List.cons.injEq,true_and] at heq
      exact (hstart a _ _ heq).elim
    | cons b m =>
      simp only [list,List.cons_append,List.append_assoc,List.cons.injEq,true_and] at heq
      obtain ⟨rfl,hrest⟩ := h.apply heq
      obtain ⟨rfl,hr⟩ := (prefixCode_listRest h).apply hrest
      exact ⟨rfl,hr⟩

end Lists

end JsonText
