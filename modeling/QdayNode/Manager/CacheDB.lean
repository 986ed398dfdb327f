import Mathlib

/-!
# The write cache in front of a database

`CacheDB` keeps the writes since the last flush in a `MemDB` and reads through it.  The calls on a
bucket touch that bucket only, so the databases are modelled bucket by bucket: what the three maps of a
`MemDB` hold under one name is a `MemBucket`.  The loops over maps in `Flush` touch every key once and
are written key by key.
-/
namespace QdayNode.Cache

variable {N K V : Type}

/-- A map that may be nil, of values that may be nil. -/
abbrev Table (K V : Type) := Option (K → Option (Option V))

def find (m : Table K V) (k : K) : Option (Option V) := m.bind (· k)

def marked (m : Option (K → Bool)) (k : K) : Bool := m.any (· k)

@[simp] theorem find_none (k : K) : find (none : Table K V) k = none := rfl

@[simp] theorem find_some (p : K → Option (Option V)) (k : K) : find (some p) k = p k := rfl

@[simp] theorem marked_none (k : K) : marked none k = false := rfl

@[simp] theorem marked_some (d : K → Bool) (k : K) : marked (some d) k = d k := rfl

structure MemBucket (K V : Type) where
  buckets : Table K V
  puts : Table K V
  dels : Option (K → Bool)

namespace MemBucket

variable (s : MemBucket K V)

def get (k : K) : Option V :=
  match find s.puts k with
  | some val => val
  | none => if marked s.dels k then none else (find s.buckets k).join

/-- `none` is the error "bucket does not exist". -/
def put [DecidableEq K] (k : K) (v : Option V) : Option (MemBucket K V) :=
  if s.puts.isNone ∧ s.buckets.isNone then none
  else some { s with
    puts := some (Function.update (find s.puts) k (some v))
    dels := s.dels.map (Function.update · k false) }

def delete [DecidableEq K] (k : K) : Option (MemBucket K V) :=
  if s.dels.isNone ∧ s.buckets.isNone then none
  else some { s with
    dels := some (Function.update (marked s.dels) k true)
    puts := s.puts.map (Function.update · k none) }

def isNil : Bool := s.buckets.isNone && s.puts.isNone && s.dels.isNone

/-- `none` is the error "bucket already exists". -/
def createBucket : Option (MemBucket K V) :=
  if s.buckets.isSome then none else some { s with puts := some fun _ => none, dels := some fun _ => false }

def iter (k : K) : List (Option V) :=
  match find s.buckets k with
  | none => []
  | some val =>
    match find s.puts k with
    | some pval => [pval]
    | none => if marked s.dels k then [] else [val]

/-- `Put` of all pairs of a map; an error is ignored.  An empty map of puts where the code leaves none
is dropped by the flush that follows. -/
def putAll (kvs : Table K V) : MemBucket K V :=
  if kvs.isNone ∨ s.puts.isNone ∧ s.buckets.isNone then s
  else { s with
    puts := some fun k => (find kvs k).or (find s.puts k)
    dels := s.dels.map fun d k => d k && (find kvs k).isNone }

def deleteAll (ks : Option (K → Bool)) : MemBucket K V :=
  if ks.isNone ∨ s.dels.isNone ∧ s.buckets.isNone then s
  else { s with
    dels := some fun k => marked ks k || marked s.dels k
    puts := s.puts.map fun p k => if marked ks k then none else p k }

def flush : MemBucket K V :=
  let merged := if s.puts.isNone then s.buckets else some fun k => (find s.puts k).or (find s.buckets k)
  ⟨if s.dels.isNone then merged else some fun k => if marked s.dels k then none else find merged k, none, none⟩

def cancel : MemBucket K V := { s with puts := none, dels := none }

end MemBucket

inductive Call (K V : Type)
  | createBucket
  | put (k : K) (v : Option V)
  | delete (k : K)
  | get (k : K)
  | iter

inductive Result (K V : Type)
  | done (ok : Bool)
  | value (v : Option V)
  | pairs (yielded : K → List (Option V))
  | noBucket

/-- A bucket of a `CacheDB`, in `db.mem` and in `db.db`. -/
structure CacheBucket (K V : Type) where
  mem : MemBucket K V
  db : MemBucket K V

namespace CacheBucket

variable (s : CacheBucket K V)

/-- `CacheDB.Bucket` and a call on what it returns. -/
def bucket (f : CacheBucket K V → Result K V × CacheBucket K V) : Result K V × CacheBucket K V :=
  if s.db.isNil then (.noBucket, s)
  else if s.mem.isNil then f { s with mem := s.mem.createBucket.getD s.mem }
  else f s

def get (k : K) : Option V := (s.mem.get k).or (s.db.get k)

def iter (k : K) : List (Option V) :=
  s.mem.iter k ++ if (find s.mem.puts k).isSome || marked s.mem.dels k then [] else s.db.iter k

def createBucket : Result K V × CacheBucket K V :=
  match s.db.createBucket with
  | none => (.done false, s)
  | some db =>
    match s.mem.createBucket with
    | none => (.done false, { s with db := db })
    | some mem => (.done true, ⟨mem, db⟩)

def exec [DecidableEq K] : Call K V → Result K V × CacheBucket K V
  | .createBucket => s.createBucket
  | .put k v => s.bucket fun s => (.done (s.mem.put k v).isSome, { s with mem := (s.mem.put k v).getD s.mem })
  | .delete k => s.bucket fun s => (.done (s.mem.delete k).isSome, { s with mem := (s.mem.delete k).getD s.mem })
  | .get k => s.bucket fun s => (.value (s.get k), s)
  | .iter => s.bucket fun s => (.pairs s.iter, s)

def flush : CacheBucket K V where
  db := ((s.db.putAll (s.mem.puts.map fun p k => if marked s.mem.dels k then none else p k)).deleteAll s.mem.dels).flush
  mem := ⟨s.mem.buckets.map fun _ _ => none, s.mem.puts.map fun _ _ => none, s.mem.dels.map fun _ _ => false⟩

def cancel : CacheBucket K V := ⟨s.mem.cancel, s.db.cancel⟩

end CacheBucket

/-- A bucket of a plain map: its last flushed contents, its contents and the keys put since the flush. -/
structure PlainBucket (K V : Type) where
  committed : Table K V
  current : Table K V
  written : K → Bool

namespace PlainBucket

variable (m : PlainBucket K V)

def bucket (f : (K → Option (Option V)) → Result K V × PlainBucket K V) : Result K V × PlainBucket K V :=
  match m.current with
  | none => (.noBucket, m)
  | some t => f t

def exec [DecidableEq K] : Call K V → Result K V × PlainBucket K V
  | .createBucket =>
    if m.current.isNone then (.done true, { m with current := some fun _ => none }) else (.done false, m)
  | .put k v => m.bucket fun t => (.done true, ⟨m.committed, some (Function.update t k (some v)), Function.update m.written k true⟩)
  | .delete k => m.bucket fun t => (.done true, ⟨m.committed, some (Function.update t k none), Function.update m.written k false⟩)
  | .get k => m.bucket fun t => (.value (t k).join, m)
  | .iter => m.bucket fun t => (.pairs fun k => (t k).toList, m)

def flush : PlainBucket K V := ⟨m.current, m.current, fun _ => false⟩

def cancel : PlainBucket K V := ⟨m.committed, m.committed, fun _ => false⟩

/-- The calls that the cache answers as a plain map: the bucket is not created again before its creation
is flushed, a key without a value has no flushed value either when it is read, and the bucket has no
unflushed puts when it is listed. -/
def Permits : Call K V → Prop
  | .createBucket => m.committed = none → m.current = none
  | .get k => (find m.current k).join = none → (find m.committed k).join = none
  | .iter => ∀ k, m.written k = false
  | _ => True

end PlainBucket

/-- The unflushed writes of the cache over the flushed contents. -/
def overlay (s : CacheBucket K V) (m : PlainBucket K V) (k : K) : Option (Option V) :=
  if marked s.mem.dels k then none else (find s.mem.puts k).or (find m.committed k)

structure Consistent (s : CacheBucket K V) (m : PlainBucket K V) : Prop where
  memBuckets : s.mem.buckets = none
  dbBuckets : s.db.buckets = m.committed
  paired : s.mem.puts.isSome = s.mem.dels.isSome
  absent : m.current = none → m.committed = none ∧ s.mem.puts = none ∧ s.db.puts = none ∧ s.db.dels = none
  fresh : m.current.isSome → m.committed = none → s.db.puts = some (fun _ => none) ∧ s.db.dels = some fun _ => false
  flushed : m.committed.isSome → s.db.puts = none ∧ s.db.dels = none
  current : ∀ t, m.current = some t → t = overlay s m
  disjoint : ∀ k, marked s.mem.dels k → find s.mem.puts k = none
  written : ∀ k, m.written k = (find s.mem.puts k).isSome

namespace Consistent

variable {s : CacheBucket K V} {m : PlainBucket K V} {t u : K → Option (Option V)} {p : K → Option (Option V)} {d : K → Bool}

/-- The pending maps of a bucket replaced by others. -/
theorem write {w : K → Bool} (hs : Consistent s m) (h : m.current = some t) (hdisj : ∀ k, d k → p k = none)
    (hwritten : ∀ k, w k = (p k).isSome) (ht : ∀ k, u k = if d k then none else (p k).or (find m.committed k)) :
    Consistent ⟨⟨s.mem.buckets, some p, some d⟩, s.db⟩ ⟨m.committed, some u, w⟩ where
  memBuckets := hs.memBuckets
  dbBuckets := hs.dbBuckets
  paired := rfl
  absent := nofun
  fresh _ := hs.fresh (by rw [h,Option.isSome_some])
  flushed := hs.flushed
  current := by
    intro u' hu'
    obtain rfl : u = u' := Option.some.inj hu'
    funext k
    exact ht k
  disjoint := hdisj
  written := hwritten

/-- What the pending maps say of a bucket. -/
theorem current_eq (hs : Consistent s m) (h : m.current = some t) (hp : s.mem.puts = some p) (hd : s.mem.dels = some d) :
    (∀ k, t k = if d k then none else (p k).or (find m.committed k)) ∧ (∀ k, d k → p k = none) ∧
      ∀ k, m.written k = (p k).isSome := by
  refine ⟨fun k => ?_,fun k => ?_,fun k => ?_⟩
  · rw [hs.current t h]
    simp [overlay,hp,hd]
  · simpa [hp,hd] using hs.disjoint k
  · simpa [hp] using hs.written k

theorem isNil_iff (hs : Consistent s m) : s.db.isNil = true ↔ m.current = none := by
  have hdb := hs.dbBuckets
  cases hcur : m.current with
  | none =>
    obtain ⟨hm,-,hp,hd⟩ := hs.absent hcur
    simp [MemBucket.isNil,hdb,hm,hp,hd]
  | some t =>
    cases hm : m.committed with
    | none => simp [MemBucket.isNil,(hs.fresh (by simp [hcur]) hm).1]
    | some _ => simp [MemBucket.isNil,hdb,hm]

/-- A call on a bucket: there is none, or its pending maps have been made. -/
theorem bucket {Q : Result K V × CacheBucket K V → Result K V × PlainBucket K V → Prop}
    {f : CacheBucket K V → Result K V × CacheBucket K V} {g : (K → Option (Option V)) → Result K V × PlainBucket K V}
    (hs : Consistent s m) (hnone : m.current = none → Q (.noBucket, s) (.noBucket, m))
    (hsome : ∀ s' t p d, Consistent s' m → m.current = some t → s'.mem.puts = some p → s'.mem.dels = some d → Q (f s') (g t)) :
    Q (s.bucket f) (m.bucket g) := by
  cases hcur : m.current with
  | none => simpa [CacheBucket.bucket,PlainBucket.bucket,hs.isNil_iff,hcur] using hnone hcur
  | some t =>
    have hnil : s.db.isNil = false := by
      rw [← Bool.not_eq_true,hs.isNil_iff,hcur]
      exact Option.some_ne_none t
    have hpaired := hs.paired
    simp only [CacheBucket.bucket,PlainBucket.bucket,hnil,hcur,Bool.false_eq_true,if_false]
    cases hp : s.mem.puts with
    | some p =>
      obtain ⟨d,hd⟩ := Option.isSome_iff_exists.mp (hpaired.symm.trans (by rw [hp,Option.isSome_some]))
      simpa [MemBucket.isNil,hp] using hsome s t p d hs hcur hp hd
    | none =>
      have hd : s.mem.dels = none := by simpa [hp] using hpaired
      have hcreate : s.mem.createBucket = some ⟨s.mem.buckets,some fun _ => none,some fun _ => false⟩ := by
        simp [MemBucket.createBucket,hs.memBuckets]
      have hnil' : s.mem.isNil = true := by simp [MemBucket.isNil,hs.memBuckets,hp,hd]
      simp only [hnil',if_true,hcreate,Option.getD_some]
      refine hsome _ t _ _ ?_ hcur rfl rfl
      have hwritten := hs.written
      have ht := hs.current t hcur
      have hmade := hs.write (p := fun _ => none) (d := fun _ => false) (w := m.written) (u := t) hcur (fun _ _ => rfl)
        (fun k => by simp [hwritten,hp]) (fun k => by simp [ht,overlay,hp,hd])
      rwa [← hcur] at hmade

/-- The database below shows the flushed contents. -/
theorem db_reads (hs : Consistent s m) (k : K) :
    s.db.get k = (find m.committed k).join ∧ s.db.iter k = (find m.committed k).toList := by
  have hclean : find s.db.puts k = none ∧ marked s.db.dels k = false := by
    cases hm : m.committed with
    | some _ => simp [hs.flushed (by simp [hm])]
    | none =>
      cases hcur : m.current with
      | none => simp [hs.absent hcur]
      | some _ => simp [hs.fresh (by simp [hcur]) hm]
  cases hfind : find m.committed k <;> simp [MemBucket.get,MemBucket.iter,hclean,hs.dbBuckets,hfind]

theorem flush_db (hs : Consistent s m) : s.flush.db = ⟨m.current, none, none⟩ := by
  have hdb := hs.dbBuckets
  have hpaired := hs.paired
  cases hcur : m.current with
  | none =>
    obtain ⟨hm,hp,hdbp,hdbd⟩ := hs.absent hcur
    simp [CacheBucket.flush,MemBucket.flush,MemBucket.deleteAll,MemBucket.putAll,hp,hdbp,hdbd,hdb,hm]
  | some t =>
    rw [hs.current t hcur]
    -- the database below has empty pending maps for a new bucket, and none for one that was flushed
    obtain ⟨hm,hdbp,hdbd⟩ | ⟨t₀,hm,hdbp,hdbd⟩ : (m.committed = none ∧ s.db.puts = (some fun _ => none) ∧
        s.db.dels = some fun _ => false) ∨ ∃ t₀, m.committed = some t₀ ∧ s.db.puts = none ∧ s.db.dels = none := by
      cases hm : m.committed with
      | none => exact .inl ⟨rfl,hs.fresh (by simp [hcur]) hm⟩
      | some t₀ => exact .inr ⟨t₀,rfl,hs.flushed (by simp [hm])⟩
    all_goals
      cases hp : s.mem.puts with
      | none =>
        have hd : s.mem.dels = none := by simpa [hp] using hpaired
        simp [CacheBucket.flush,MemBucket.flush,MemBucket.deleteAll,MemBucket.putAll,hp,hd,hdbp,hdbd,hdb,hm]
        funext k
        simp [overlay,hp,hd,hm]
      | some p =>
        obtain ⟨d,hd⟩ := Option.isSome_iff_exists.mp (hpaired.symm.trans (by rw [hp,Option.isSome_some]))
        simp [CacheBucket.flush,MemBucket.flush,MemBucket.deleteAll,MemBucket.putAll,hp,hd,hdbp,hdbd,hdb,hm]
        funext k
        by_cases hk : d k <;> simp [overlay,hp,hd,hm,hk]

theorem flush (hs : Consistent s m) : Consistent s.flush m.flush := by
  have hempty : ∀ k, find s.flush.mem.puts k = none ∧ marked s.flush.mem.dels k = false := by
    intro k
    cases hp : s.mem.puts <;> cases hd : s.mem.dels <;> simp [CacheBucket.flush,hp,hd]
  have hdb := hs.flush_db
  constructor
  · simpa [CacheBucket.flush] using hs.memBuckets
  · rw [hdb]
    rfl
  · simpa [CacheBucket.flush] using hs.paired
  · intro habs
    exact ⟨habs,by simpa [CacheBucket.flush] using (hs.absent habs).2.1,rfl,rfl⟩
  · intro hsome hnone
    rw [show m.flush.current = none from hnone] at hsome
    cases hsome
  · exact fun _ => ⟨rfl,rfl⟩
  · intro t ht
    funext k
    have hm : m.flush.committed = some t := ht
    simp [overlay,hempty k,hm]
  · exact fun k _ => (hempty k).1
  · intro k
    simp [hempty k,PlainBucket.flush]

theorem cancel (hs : Consistent s m) : Consistent s.cancel m.cancel := by
  constructor
  · exact hs.memBuckets
  · exact hs.dbBuckets
  all_goals simp [CacheBucket.cancel,PlainBucket.cancel,MemBucket.cancel]
  case current =>
    intro t ht
    funext k
    simp [overlay,ht]
  all_goals grind

variable [DecidableEq K]

theorem exec_put (hs : Consistent s m) (k : K) (v : Option V) :
    (s.exec (.put k v)).1 = (m.exec (.put k v)).1 ∧ Consistent (s.exec (.put k v)).2 (m.exec (.put k v)).2 := by
  refine hs.bucket (Q := fun x y => x.1 = y.1 ∧ Consistent x.2 y.2) (fun _ => ⟨rfl,hs⟩) ?_
  intro s' t p d hs' hcur hp hd
  obtain ⟨ht,hdisj,hwritten⟩ := hs'.current_eq hcur hp hd
  have hput : s'.mem.put k v =
      some ⟨s'.mem.buckets,some (Function.update p k (some v)),some (Function.update d k false)⟩ := by
    have hfind : find (some p) = p := rfl
    simp [MemBucket.put,hp,hd,hfind]
  simp only [hput,Option.isSome_some,Option.getD_some,true_and]
  apply hs'.write hcur
  all_goals
    intro x
    by_cases hx : x = k <;> grind

theorem exec_delete (hs : Consistent s m) (k : K) :
    (s.exec (.delete k)).1 = (m.exec (.delete k)).1 ∧ Consistent (s.exec (.delete k)).2 (m.exec (.delete k)).2 := by
  refine hs.bucket (Q := fun x y => x.1 = y.1 ∧ Consistent x.2 y.2) (fun _ => ⟨rfl,hs⟩) ?_
  intro s' t p d hs' hcur hp hd
  obtain ⟨ht,hdisj,hwritten⟩ := hs'.current_eq hcur hp hd
  have hdelete : s'.mem.delete k =
      some ⟨s'.mem.buckets,some (Function.update p k none),some (Function.update d k true)⟩ := by
    have hmarked : marked (some d) = d := rfl
    simp [MemBucket.delete,hp,hd,hmarked]
  simp only [hdelete,Option.isSome_some,Option.getD_some,true_and]
  apply hs'.write hcur
  all_goals
    intro x
    by_cases hx : x = k <;> grind

theorem exec_get (hs : Consistent s m) (k : K) :
    ((s.exec (.get k)).1 = (m.exec (.get k)).1 ↔ m.Permits (.get k)) ∧ Consistent (s.exec (.get k)).2 (m.exec (.get k)).2 := by
  refine hs.bucket (Q := fun x y => (x.1 = y.1 ↔ m.Permits (.get k)) ∧ Consistent x.2 y.2) ?_ ?_
  · intro hcur
    simp [PlainBucket.Permits,hcur,(hs.absent hcur).1,hs]
  · intro s' t p d hs' hcur hp hd
    obtain ⟨ht,hdisj,-⟩ := hs'.current_eq hcur hp hd
    have hget : s'.get k = (p k).join.or (find m.committed k).join := by
      rw [CacheBucket.get,(hs'.db_reads k).1]
      cases hk : p k <;> simp [MemBucket.get,hs'.memBuckets,hp,hk]
    simp only [Result.value.injEq,hs',and_true,hget,PlainBucket.Permits,hcur,find_some,ht k]
    -- a key that is put has no pending deletion, so the cases are those of `p k` and `d k`
    rcases hk : p k with _ | _ | v
    · by_cases hdk : d k <;> simp [hdk]
    · have hdk : d k = false := by grind
      simp [hdk]
    · have hdk : d k = false := by grind
      simp [hdk]

theorem exec_iter (hs : Consistent s m) :
    ((s.exec .iter).1 = (m.exec .iter).1 ↔ m.Permits .iter) ∧ Consistent (s.exec .iter).2 (m.exec .iter).2 := by
  refine hs.bucket (Q := fun x y => (x.1 = y.1 ↔ m.Permits .iter) ∧ Consistent x.2 y.2) ?_ ?_
  · intro hcur
    simp [PlainBucket.Permits,hs.written,(hs.absent hcur).2.1,hs]
  · intro s' t p d hs' hcur hp hd
    obtain ⟨ht,hdisj,hwritten⟩ := hs'.current_eq hcur hp hd
    have hiter : ∀ k, s'.iter k = if (p k).isSome || d k then [] else (find m.committed k).toList := by
      intro k
      rw [CacheBucket.iter,(hs'.db_reads k).2]
      simp [MemBucket.iter,hs'.memBuckets,hp,hd]
    simp only [Result.pairs.injEq,hs',and_true,funext_iff,PlainBucket.Permits,hiter,hwritten,ht]
    refine forall_congr' fun k => ?_
    rcases hk : p k with _ | v
    · by_cases hdk : d k <;> simp [hdk]
    · have hdk : d k = false := by grind
      simp [hdk]

theorem exec_createBucket (hs : Consistent s m) :
    ((s.exec .createBucket).1 = (m.exec .createBucket).1 ↔ m.Permits .createBucket) ∧
      (m.Permits .createBucket → Consistent (s.exec .createBucket).2 (m.exec .createBucket).2) := by
  have hdb := hs.dbBuckets
  have hmem := hs.memBuckets
  cases hm : m.committed with
  | some t₀ =>
    have hcur : m.current ≠ none := by
      intro hnone
      rw [(hs.absent hnone).1] at hm
      cases hm
    simp [CacheBucket.exec,PlainBucket.exec,CacheBucket.createBucket,MemBucket.createBucket,hdb,hm,hcur,
      PlainBucket.Permits,hs]
  | none =>
    have hcreate : s.exec .createBucket = (.done true, ⟨⟨s.mem.buckets,some fun _ => none,some fun _ => false⟩,
        ⟨s.db.buckets,some fun _ => none,some fun _ => false⟩⟩) := by
      simp [CacheBucket.exec,CacheBucket.createBucket,MemBucket.createBucket,hdb,hm,hmem]
    refine ⟨by cases hcur : m.current <;> simp [hcreate,PlainBucket.exec,hcur,PlainBucket.Permits,hm],?_⟩
    intro hpermits
    have hcur : m.current = none := hpermits hm
    rw [hcreate,PlainBucket.exec,if_pos (by rw [hcur,Option.isNone_none])]
    have hputs := (hs.absent hcur).2.1
    constructor <;> simp [hmem,hdb,hm,hs.written,hputs]
    funext k
    simp [overlay]

theorem exec (hs : Consistent s m) (call : Call K V) :
    ((s.exec call).1 = (m.exec call).1 ↔ m.Permits call) ∧ (m.Permits call → Consistent (s.exec call).2 (m.exec call).2) := by
  cases call with
  | createBucket => exact hs.exec_createBucket
  | put k v => exact ⟨iff_of_true (hs.exec_put k v).1 trivial,fun _ => (hs.exec_put k v).2⟩
  | delete k => exact ⟨iff_of_true (hs.exec_delete k).1 trivial,fun _ => (hs.exec_delete k).2⟩
  | get k => exact ⟨(hs.exec_get k).1,fun _ => (hs.exec_get k).2⟩
  | iter => exact ⟨hs.exec_iter.1,fun _ => hs.exec_iter.2⟩

end Consistent

inductive Op (N K V : Type)
  | call (b : N) (call : Call K V)
  | flush
  | cancel

/-- A `CacheDB` over a `MemDB`. -/
abbrev CacheDB (N K V : Type) := N → CacheBucket K V

abbrev Plain (N K V : Type) := N → PlainBucket K V

variable [DecidableEq N] [DecidableEq K]

def CacheDB.exec (c : CacheDB N K V) : Op N K V → Result K V × CacheDB N K V
  | .call b call => (((c b).exec call).1, Function.update c b ((c b).exec call).2)
  | .flush => (.done true, fun b => (c b).flush)
  | .cancel => (.done true, fun b => (c b).cancel)

def Plain.exec (m : Plain N K V) : Op N K V → Result K V × Plain N K V
  | .call b call => (((m b).exec call).1, Function.update m b ((m b).exec call).2)
  | .flush => (.done true, fun b => (m b).flush)
  | .cancel => (.done true, fun b => (m b).cancel)

def Plain.Permits (m : Plain N K V) : Op N K V → Prop
  | .call b call => (m b).Permits call
  | _ => True

/-- Every call returns the same, and every flush leaves the plain map's contents in the database. -/
def Agree : CacheDB N K V → Plain N K V → List (Op N K V) → Prop
  | _, _, [] => True
  | c, m, op :: ops => (c.exec op).1 = (m.exec op).1 ∧
      (op = .flush → ∀ b, ((c.exec op).2 b).db = ⟨(m b).current, none, none⟩) ∧ Agree (c.exec op).2 (m.exec op).2 ops

end QdayNode.Cache
