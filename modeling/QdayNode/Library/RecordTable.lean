import QdayNode.Library.Outcome

/-!
# Tables of records behind an index

A list of records in the order they were first written, and a map from keys to
positions in the list.  Together they denote a finite map from keys to records, and
writing a record is an update of that map; what the list adds is its order.
-/
namespace RecordTable
open Outcome

variable {K α : Type}

def find (index : K → Option ℕ) (records : List α) (k : K) : Option α := (index k).bind (records[·]?)

/-- Rewrites the record under `k`, or appends one; a dangling index is out of range. -/
def upsert [DecidableEq K] (index : K → Option ℕ) (k : K) (records : List α) (f : Option α → Outcome α) :
    Outcome ((K → Option ℕ) × List α) :=
  match index k with
  | some i =>
    match records[i]? with
    | none => crash "index out of range"
    | some r => do
        let r ← f (some r)
        return (index, records.set i r)
  | none => do
      let r ← f none
      return (Function.update index k (some records.length), records ++ [r])

/-- The index points exactly at the records with the key. -/
def Keyed (key : α → K) (index : K → Option ℕ) (records : List α) : Prop :=
  ∀ k i, index k = some i ↔ ∃ r, records[i]? = some r ∧ key r = k

variable {key : α → K} {index index' : K → Option ℕ} {records records' : List α} {k : K}
  {f : Option α → Outcome α}

theorem keyed_empty (key : α → K) : Keyed key (fun _ => none) [] := by
  intro k i
  simp

theorem Keyed.find_eq_some (h : Keyed key index records) {r : α} :
    find index records k = some r ↔ r ∈ records ∧ key r = k := by
  simp only [find,Option.bind_eq_some_iff]
  constructor
  · rintro ⟨i,hi,hr⟩
    obtain ⟨r',hr',hk⟩ := (h k i).mp hi
    obtain rfl : r' = r := Option.some.inj (hr'.symm.trans hr)
    exact ⟨List.mem_of_getElem? hr,hk⟩
  · rintro ⟨hmem,hk⟩
    obtain ⟨i,hi⟩ := List.getElem?_of_mem hmem
    exact ⟨i,(h k i).mpr ⟨r,hi,hk⟩,hi⟩

theorem Keyed.nodup (h : Keyed key index records) : (records.map key).Nodup := by
  rw [List.nodup_iff_injective_getElem]
  intro i j heq
  simp only [List.getElem_map] at heq
  have hi : records[i.val]? = some records[i.val] := List.getElem?_eq_getElem _
  have hj : records[j.val]? = some records[j.val] := List.getElem?_eq_getElem _
  have hpos := ((h _ i).mpr ⟨_,hi,rfl⟩).symm.trans ((h _ j).mpr ⟨_,hj,heq.symm⟩)
  exact Fin.ext (Option.some.inj hpos)

variable [DecidableEq K]

/-- What writing the record `r` under `k` makes of a table. -/
structure Written (key : α → K) (index index' : K → Option ℕ) (records records' : List α) (k : K) (r : α) : Prop where
  keyed : Keyed key index' records'
  find_eq : find index' records' = Function.update (find index records) k (some r)
  /-- A total over the records changes by the new record and the one it replaces. -/
  sum_eq : ∀ w : α → ℤ, (records'.map w).sum = (records.map w).sum - (find index records k).elim 0 w + w r

theorem sum_map_set (w : α → ℤ) {i : ℕ} {r : α} (hr : records[i]? = some r) (r' : α) :
    ((records.set i r').map w).sum = (records.map w).sum - w r + w r' := by
  induction records generalizing i with
  | nil => cases hr
  | cons a as ih =>
    cases i with
    | zero =>
      obtain rfl : a = r := by simpa using hr
      simp only [List.set_cons_zero,List.map_cons,List.sum_cons]
      omega
    | succ i =>
      have := ih (by simpa using hr)
      simp only [List.set_cons_succ,List.map_cons,List.sum_cons,this]
      omega

theorem Keyed.written_set (h : Keyed key index records) {i : ℕ} {r r' : α} (hi : index k = some i)
    (hr : records[i]? = some r) (hkey : key r' = k) : Written key index index records (records.set i r') k r' := by
  obtain ⟨hlt,-⟩ := List.getElem?_eq_some_iff.mp hr
  have hfind : find index records k = some r := by rw [find,hi,Option.bind_some,hr]
  refine ⟨?_,?_,?_⟩
  · intro k' j
    rw [h k' j]
    by_cases hj : i = j
    · subst hj
      simp only [List.getElem?_set_self hlt,hr,Option.some.injEq,exists_eq_left',hkey,
        (h.find_eq_some.mp hfind).2]
    · simp only [List.getElem?_set_ne hj]
  · funext k'
    by_cases hk : k' = k
    · rw [hk,Function.update_self,find,hi,Option.bind_some,List.getElem?_set_self hlt]
    · rw [Function.update_of_ne hk,find,find]
      cases hj : index k' with
      | none => rfl
      | some j =>
        -- distinct keys are stored at distinct positions
        have hne : i ≠ j := by
          rintro rfl
          obtain ⟨r₀,hr₀,hk₀⟩ := (h k' i).mp hj
          obtain rfl : r₀ = r := Option.some.inj (hr₀.symm.trans hr)
          exact hk (hk₀.symm.trans (h.find_eq_some.mp hfind).2)
        rw [Option.bind_some,Option.bind_some,List.getElem?_set_ne hne]
  · intro w
    rw [hfind]
    exact sum_map_set w hr r'

theorem Keyed.written_append (h : Keyed key index records) {r : α} (hk : index k = none) (hkey : key r = k) :
    Written key index (Function.update index k (some records.length)) records (records ++ [r]) k r := by
  have hlt : ∀ k' j, index k' = some j → j < records.length := fun k' j hj => by
    obtain ⟨r',hr',-⟩ := (h k' j).mp hj
    exact (List.getElem?_eq_some_iff.mp hr').1
  refine ⟨?_,?_,?_⟩
  · intro k' j
    by_cases hj : j < records.length
    · rw [List.getElem?_append_left hj,← h k' j]
      by_cases hk' : k' = k
      · rw [hk',Function.update_self,hk]
        simp only [Option.some.injEq,reduceCtorEq,iff_false]
        omega
      · rw [Function.update_of_ne hk']
    · rw [List.getElem?_append_right (not_lt.mp hj)]
      have hnew : index k' ≠ some j := fun hj' => hj (hlt k' j hj')
      by_cases hk' : k' = k
      · rw [hk',Function.update_self,Option.some.injEq]
        constructor
        · rintro rfl
          exact ⟨r,by simp,hkey⟩
        · rintro ⟨r',hr',-⟩
          have := (List.getElem?_eq_some_iff.mp hr').1
          simp only [List.length_singleton] at this
          omega
      · rw [Function.update_of_ne hk']
        refine ⟨fun hj' => absurd hj' hnew,?_⟩
        rintro ⟨r',hr',hkr'⟩
        obtain rfl : r' = r := by simpa using List.mem_of_getElem? hr'
        exact absurd (hkr'.symm.trans hkey) hk'
  · funext k'
    by_cases hk' : k' = k
    · rw [hk',Function.update_self,find,Function.update_self,Option.bind_some]
      simp
    · rw [Function.update_of_ne hk',find,find,Function.update_of_ne hk']
      cases hj : index k' with
      | none => rfl
      | some j => rw [Option.bind_some,Option.bind_some,List.getElem?_append_left (hlt k' j hj)]
  · intro w
    rw [find,hk]
    simp

theorem Keyed.upsert (h : Keyed key index records) {r : α} (hf : f (find index records k) = .ok r)
    (hkey : key r = k) :
    ∃ index' records', upsert index k records f = .ok (index', records') ∧
      Written key index index' records records' k r := by
  unfold RecordTable.upsert
  cases hi : index k with
  | none =>
    have hnone : find index records k = none := by rw [find,hi,Option.bind_none]
    refine ⟨_,_,?_,h.written_append hi hkey⟩
    rw [hnone] at hf
    simp only [hf,ok_bind]
    rfl
  | some i =>
    obtain ⟨r₀,hr₀,-⟩ := (h k i).mp hi
    have hsome : find index records k = some r₀ := by rw [find,hi,Option.bind_some,hr₀]
    refine ⟨_,_,?_,h.written_set hi hr₀ hkey⟩
    rw [hsome] at hf
    simp only [hr₀,hf,ok_bind]
    rfl

end RecordTable
