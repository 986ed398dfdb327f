import Mathlib

/-!
# The limits on requests of peers

Every `runPeer` loop takes a place in the channel of its peer, a slot of the subnet and, for a
large payload, a slot of the relay budget, and a goroutine gives them back in its deferred calls.
Each operation under a mutex or on a channel is a step of its own.  Loops and handlers of any
number of peers take their steps in any order.
-/
namespace QdayNode.Inflight

variable {i : ℕ} {R : Type}

/-- Where a request is: in the loop up to `refused`, in its handler from `running` on. -/
inductive Stage
  | accepted
  | admitted
  | refused
  | running
  | ended
  | drained
  | done
  deriving DecidableEq

inductive Resource
  | place
  | subnet
  | payload
  deriving DecidableEq

inductive Call
  | acquire (r : Resource)
  | release (r : Resource)
  deriving DecidableEq

/-- A request with the calls made for it so far. -/
structure Rpc (P : Type) where
  peer : P
  large : Bool
  stage : Stage
  calls : List Call

/-- `relayPayloads.active`, `relayPayloads.peers[p]`, `inflightSubnet[key]` and the length of the
channel of a peer. -/
inductive Counter (P : Type)
  | active
  | peers (p : P)
  | subnet (key : String)
  | places (p : P)
  deriving DecidableEq

structure State (P : Type) where
  count : Counter P → ℤ
  rpcs : List (Rpc P)

structure Config (P : Type) where
  subnetKey : P → String
  maxInflightRPCs : ℕ
  maxInflightRPCsPerSubnet : ℤ

/-- Keys for which `acquireInflight` keeps a count. -/
def Config.counted {P : Type} (cfg : Config P) (key : String) : Bool := !(key = "" ∨ cfg.maxInflightRPCsPerSubnet ≤ 0)

variable {P : Type} [DecidableEq P] (cfg : Config P)

section Steps

def maxRelayPayloads : ℤ := 8

def maxPeerRelayPayloads : ℤ := 2

def State.add (s : State P) (counters : List (Counter P)) (d : ℤ) : State P :=
  { s with count := fun x => if x ∈ counters then s.count x + d else s.count x }

def State.acquire (s : State P) (p : P) : Option (State P) :=
  if s.count .active ≥ maxRelayPayloads ∨ s.count (.peers p) ≥ maxPeerRelayPayloads then none
  else some (s.add [.peers p, .active] 1)

def State.release (s : State P) (p : P) : State P := s.add [.active, .peers p] (-1)

def State.acquireInflight (s : State P) (key : String) : Option (State P) :=
  if !cfg.counted key then some s
  else if s.count (.subnet key) ≥ cfg.maxInflightRPCsPerSubnet then none
  else some (s.add [.subnet key] 1)

def State.releaseInflight (s : State P) (key : String) : State P :=
  if !cfg.counted key then s
  -- a count that is not positive is deleted
  else if s.count (.subnet key) - 1 ≤ 0 then s.add [.subnet key] (-s.count (.subnet key))
  else s.add [.subnet key] (-1)

def State.move (s : State P) (i : ℕ) (r : Rpc P) (stage : Stage) (calls : List Call) : State P :=
  { s with rpcs := s.rpcs.set i { r with stage := stage, calls := r.calls ++ calls } }

/-- The next operation for request `i`.  A handler that returns, panics or finds the syncer stopped
runs its deferred calls. -/
def State.advance (s : State P) (i : ℕ) : State P :=
  match s.rpcs[i]? with
  | none => s
  | some r =>
    match r.stage with
    | .accepted =>
      match s.acquireInflight cfg (cfg.subnetKey r.peer) with
      | some s => s.move i r .admitted [.acquire .subnet]
      | none => s.move i r .drained []
    | .admitted =>
      if r.large then
        match s.acquire r.peer with
        | some s => s.move i r .running [.acquire .payload]
        | none => s.move i r .refused []
      else s.move i r .running []
    | .refused => (s.releaseInflight cfg (cfg.subnetKey r.peer)).move i r .drained [.release .subnet]
    | .running => if r.large then (s.release r.peer).move i r .ended [.release .payload] else s.move i r .ended []
    | .ended => (s.releaseInflight cfg (cfg.subnetKey r.peer)).move i r .drained [.release .subnet]
    | .drained => (s.add [.places r.peer] (-1)).move i r .done [.release .place]
    | .done => s

/-- A loop accepts a request, unless it waits for a place in the channel or stops. -/
def State.accept (s : State P) (p : P) (large : Bool) : State P :=
  if s.count (.places p) < cfg.maxInflightRPCs then
    { s.add [.places p] 1 with rpcs := s.rpcs ++ [⟨p, large, .accepted, [.acquire .place]⟩] }
  else s

inductive Event (P : Type)
  | accept (p : P) (large : Bool)
  | advance (i : ℕ)

def State.step (s : State P) : Event P → State P
  | .accept p large => s.accept cfg p large
  | .advance i => s.advance cfg i

def run (events : List (Event P)) : State P := events.foldl (State.step cfg) ⟨fun _ => 0, []⟩

end Steps

section Invariant

def Stage.holds (large : Bool) : Stage → Resource → Bool
  | stage, .place => stage ≠ .done
  | stage, .subnet => stage = .admitted ∨ stage = .refused ∨ stage = .running ∨ stage = .ended
  | stage, .payload => large ∧ stage = .running

/-- The request counts for the counter. -/
def Rpc.counts (r : Rpc P) : Counter P → Bool
  | .active => r.stage.holds r.large .payload
  | .peers p => r.stage.holds r.large .payload && p = r.peer
  | .subnet key => r.stage.holds r.large .subnet && (cfg.counted (cfg.subnetKey r.peer) && key = cfg.subnetKey r.peer)
  | .places p => r.stage.holds r.large .place && p = r.peer

def Config.limit : Counter P → ℤ
  | .active => maxRelayPayloads
  | .peers _ => maxPeerRelayPayloads
  | .subnet _ => max 0 cfg.maxInflightRPCsPerSubnet
  | .places _ => cfg.maxInflightRPCs

/-- The calls of a rejection by the subnet, of one by the relay budget and of a handler, but for the last. -/
def drainedTraces (large : Bool) : List (List Call) :=
  [[.acquire .place], [.acquire .place, .acquire .subnet, .release .subnet],
    [.acquire .place, .acquire .subnet] ++ (if large then [.acquire .payload, .release .payload] else []) ++ [.release .subnet]]

def traces (large : Bool) : Stage → List (List Call)
  | .accepted => [[.acquire .place]]
  | .admitted => [[.acquire .place, .acquire .subnet]]
  | .refused => [[.acquire .place, .acquire .subnet]]
  | .running => [[.acquire .place, .acquire .subnet] ++ if large then [.acquire .payload] else []]
  | .ended => [[.acquire .place, .acquire .subnet] ++ if large then [.acquire .payload, .release .payload] else []]
  | .drained => drainedTraces large
  | .done => (drainedTraces large).map (· ++ [.release .place])

theorem traces_balanced (large : Bool) (stage : Stage) (res : Resource) : ∀ calls ∈ traces large stage,
    calls.count (.release res) + (stage.holds large res).toNat = calls.count (.acquire res) ∧ calls.count (.acquire res) ≤ 1 := by
  cases large <;> cases stage <;> cases res <;> decide

def Stage.rank : Stage → ℕ
  | .accepted => 0
  | .admitted => 1
  | .running => 2
  | .refused => 3
  | .ended => 3
  | .drained => 4
  | .done => 5

structure Counts (s : State P) : Prop where
  count : ∀ x, s.count x = s.rpcs.countP (Rpc.counts cfg · x)
  le : ∀ x, s.count x ≤ cfg.limit x
  traced : ∀ r ∈ s.rpcs, r.calls ∈ traces r.large r.stage

/-- A request comes to a later stage, with the counters changed by what it then holds more or less. -/
structure Moves (s : State P) (r r' : Rpc P) (s' : State P) : Prop where
  rpcs : s'.rpcs = s.rpcs
  rank : r.stage.rank < r'.stage.rank
  count : ∀ x, s'.count x = s.count x + (r'.counts cfg x).toNat - (r.counts cfg x).toNat
  le : ∀ x, s'.count x ≤ cfg.limit x
  traced : r.calls ∈ traces r.large r.stage → r'.calls ∈ traces r'.large r'.stage

variable {cfg} {s s' : State P} {r r' : Rpc P}

omit [DecidableEq P] in
theorem countP_set_add {l : List R} {r : R} (hr : l[i]? = some r) (r' : R) (q : R → Bool) :
    (l.set i r').countP q + (q r).toNat = l.countP q + (q r').toNat := by
  obtain ⟨hi,rfl⟩ := List.getElem?_eq_some_iff.mp hr
  rw [List.countP_set hi]
  cases hq : q l[i] with
  | true =>
    have hpos : 0 < l.countP q := List.countP_pos_iff.mpr ⟨_,List.getElem_mem hi,hq⟩
    cases q r' <;> simp <;> omega
  | false => cases q r' <;> simp

theorem Moves.counts (m : Moves cfg s r r' s') (h : Counts cfg s) (hr : s.rpcs[i]? = some r) :
    Counts cfg { s' with rpcs := s'.rpcs.set i r' } := by
  rw [m.rpcs]
  refine ⟨fun x => ?_,m.le,fun r'' hr'' => ?_⟩
  · change s'.count x = ((s.rpcs.set i r').countP (Rpc.counts cfg · x) : ℕ)
    have hset := countP_set_add hr r' (Rpc.counts cfg · x)
    rw [m.count,h.count]
    omega
  · rcases List.mem_or_eq_of_mem_set hr'' with hr'' | rfl
    · exact h.traced r'' hr''
    · exact m.traced (h.traced r (List.mem_of_getElem? hr))

theorem Counts.pos (h : Counts cfg s) (hr : s.rpcs[i]? = some r) {x : Counter P} (hx : r.counts cfg x = true) : 1 ≤ s.count x := by
  rw [h.count x]
  have : 0 < s.rpcs.countP (Rpc.counts cfg · x) := List.countP_pos_iff.mpr ⟨r,List.mem_of_getElem? hr,hx⟩
  omega

/-- Counters that go up have room, counters that go down are positive. -/
theorem add_le (h : Counts cfg s) {counters : List (Counter P)} {d : ℤ} (hroom : ∀ x ∈ counters, s.count x + d ≤ cfg.limit x)
    (x : Counter P) : (s.add counters d).count x ≤ cfg.limit x := by
  simp only [State.add]
  split_ifs with hx
  · exact hroom x hx
  · exact h.le x

omit [DecidableEq P] in
theorem ite_add (p : Prop) [Decidable p] (a d : ℤ) : (if p then a + d else a) = a + d * (decide p).toNat := by
  split_ifs with h <;> simp [h]

theorem releaseInflight_eq (h : Counts cfg s) (hr : s.rpcs[i]? = some r) (hholds : r.stage.holds r.large .subnet = true) :
    s.releaseInflight cfg (cfg.subnetKey r.peer) =
      if cfg.counted (cfg.subnetKey r.peer) then s.add [.subnet (cfg.subnetKey r.peer)] (-1) else s := by
  rw [State.releaseInflight]
  cases hcounted : cfg.counted (cfg.subnetKey r.peer) with
  | false => rfl
  | true =>
    have hpos := h.pos hr (x := .subnet (cfg.subnetKey r.peer)) (by simp [Rpc.counts,hholds,hcounted])
    rw [if_neg (by decide),if_pos rfl]
    split_ifs with hle
    · rw [show s.count (.subnet (cfg.subnetKey r.peer)) = 1 by omega]
    · rfl

theorem Counts.drained (h : Counts cfg s) (hr : s.rpcs[i]? = some r) (hst : r.stage = .refused ∨ r.stage = .ended) :
    Moves cfg s r { r with stage := .drained, calls := r.calls ++ [.release .subnet] } (s.releaseInflight cfg (cfg.subnetKey r.peer)) := by
  have hholds : r.stage.holds r.large .subnet = true := by rcases hst with hst | hst <;> simp [Stage.holds,hst]
  rw [releaseInflight_eq h hr hholds]
  refine ⟨by split_ifs <;> rfl,by rcases hst with hst | hst <;> simp [hst,Stage.rank],fun x => ?_,fun x => ?_,?_⟩
  · rcases hst with hst | hst <;> cases hcounted : cfg.counted (cfg.subnetKey r.peer) <;> cases x <;>
      simp [Rpc.counts,Stage.holds,hst,hcounted,State.add,ite_add,sub_eq_add_neg]
  · split_ifs
    · refine add_le h (fun x hx => ?_) x
      have := h.le x
      omega
    · exact h.le x
  · rcases hst with hst | hst <;> cases r.large <;> simp +contextual [hst,traces,drainedTraces]

theorem Counts.moves (h : Counts cfg s) (hr : s.rpcs[i]? = some r) (hdone : r.stage ≠ .done) :
    ∃ r' s', s.advance cfg i = { s' with rpcs := s'.rpcs.set i r' } ∧ Moves cfg s r r' s' := by
  rw [State.advance,hr]
  cases hst : r.stage with
  | accepted =>
    simp only [hst]
    rw [State.acquireInflight]
    cases hcounted : cfg.counted (cfg.subnetKey r.peer) with
    | false =>
      refine ⟨_,_,rfl,rfl,by simp [hst,Stage.rank],fun x => ?_,h.le,by simp +contextual [hst,traces]⟩
      cases x <;> simp [Rpc.counts,Stage.holds,hst,hcounted]
    | true =>
      by_cases hfull : s.count (.subnet (cfg.subnetKey r.peer)) ≥ cfg.maxInflightRPCsPerSubnet
      · simp only [hfull,Bool.not_true,Bool.false_eq_true,if_false,if_true]
        refine ⟨_,_,rfl,rfl,by simp [hst,Stage.rank],fun x => ?_,h.le,by simp +contextual [hst,traces,drainedTraces]⟩
        cases x <;> simp [Rpc.counts,Stage.holds,hst]
      · simp only [hfull,Bool.not_true,Bool.false_eq_true,if_false]
        refine ⟨_,_,rfl,rfl,by simp [hst,Stage.rank],fun x => ?_,add_le h fun x hx => ?_,by simp +contextual [hst,traces]⟩
        · cases x <;> simp [Rpc.counts,Stage.holds,hst,hcounted,State.add,ite_add]
        · rw [List.mem_singleton.mp hx,Config.limit]
          omega
  | admitted =>
    simp only [hst]
    cases hlarge : r.large with
    | true =>
      rw [if_pos rfl,State.acquire]
      by_cases hfull : s.count .active ≥ maxRelayPayloads ∨ s.count (.peers r.peer) ≥ maxPeerRelayPayloads
      · simp only [hfull,if_true]
        refine ⟨_,_,rfl,rfl,by simp [hst,Stage.rank],fun x => ?_,h.le,by simp +contextual [hst,traces]⟩
        cases x <;> simp [Rpc.counts,Stage.holds,hst]
      · simp only [hfull,if_false]
        refine ⟨_,_,rfl,rfl,by simp [hst,Stage.rank],fun x => ?_,add_le h fun x hx => ?_,by simp +contextual [hst,hlarge,traces]⟩
        · cases x <;> simp [Rpc.counts,Stage.holds,hst,hlarge,State.add,ite_add]
        · rw [not_or,not_le,not_le] at hfull
          rcases List.mem_pair.mp hx with rfl | rfl
          · exact hfull.2
          · exact hfull.1
    | false =>
      refine ⟨_,_,rfl,rfl,by simp [hst,Stage.rank],fun x => ?_,h.le,by simp +contextual [hst,hlarge,traces]⟩
      cases x <;> simp [Rpc.counts,Stage.holds,hst,hlarge]
  | refused => exact ⟨_,_,by simp only [hst]; rfl,h.drained hr (.inl hst)⟩
  | running =>
    simp only [hst]
    cases hlarge : r.large with
    | true =>
      rw [if_pos rfl]
      refine ⟨_,_,rfl,rfl,by simp [hst,Stage.rank],fun x => ?_,add_le h fun x hx => ?_,by simp +contextual [hst,hlarge,traces]⟩
      · cases x <;> simp [Rpc.counts,Stage.holds,hst,hlarge,State.add,State.release,ite_add,sub_eq_add_neg]
      · have := h.le x
        omega
    | false =>
      refine ⟨_,_,rfl,rfl,by simp [hst,Stage.rank],fun x => ?_,h.le,by simp +contextual [hst,hlarge,traces]⟩
      cases x <;> simp [Rpc.counts,Stage.holds,hst,hlarge]
  | ended => exact ⟨_,_,by simp only [hst]; rfl,h.drained hr (.inr hst)⟩
  | drained =>
    simp only [hst]
    refine ⟨_,_,rfl,rfl,by simp [hst,Stage.rank],fun x => ?_,add_le h fun x hx => ?_,by simp +contextual [hst,traces]⟩
    · cases x <;> simp [Rpc.counts,Stage.holds,hst,State.add,ite_add,sub_eq_add_neg]
    · have := h.le x
      omega
  | done => exact absurd hst hdone

theorem Counts.advance (h : Counts cfg s) (i : ℕ) : Counts cfg (s.advance cfg i) := by
  cases hr : s.rpcs[i]? with
  | none => rwa [State.advance,hr]
  | some r =>
    by_cases hdone : r.stage = .done
    · rw [State.advance,hr]
      simpa only [hdone] using h
    · obtain ⟨r',s',hrun,m⟩ := h.moves hr hdone
      rw [hrun]
      exact m.counts h hr

theorem Counts.accept (h : Counts cfg s) (p : P) (large : Bool) : Counts cfg (s.accept cfg p large) := by
  rw [State.accept]
  split_ifs with hroom
  · refine ⟨fun x => ?_,add_le h fun x hx => ?_,fun r hr => ?_⟩
    · rw [List.countP_append,List.countP_singleton,Nat.cast_add,← h.count]
      cases x <;> simp only [State.add,Rpc.counts,Stage.holds] <;> simp
      split_ifs <;> simp
    · rw [List.mem_singleton.mp hx]
      exact hroom
    · rcases List.mem_append.mp hr with hr | hr
      · exact h.traced r hr
      · rw [List.mem_singleton.mp hr]
        exact List.mem_singleton_self _
  · exact h

theorem counts_run (cfg : Config P) (events : List (Event P)) : Counts cfg (run cfg events) := by
  have hidle : Counts cfg ⟨fun _ => 0,[]⟩ := by
    refine ⟨fun _ => rfl,fun x => ?_,fun r hr => absurd hr List.not_mem_nil⟩
    cases x <;> simp [Config.limit,maxRelayPayloads,maxPeerRelayPayloads]
  have hstep : ∀ (s : State P) (e : Event P), Counts cfg s → Counts cfg (s.step cfg e) := by
    intro s e h
    cases e with
    | accept p large => exact h.accept p large
    | advance i => exact h.advance i
  rw [run]
  generalize (⟨fun _ => 0,[]⟩ : State P) = s at hidle
  induction events generalizing s with
  | nil => exact hidle
  | cons e events ih => exact ih _ (hstep s e hidle)

theorem Counts.advance_rank (h : Counts cfg s) (hr : s.rpcs[i]? = some r) :
    ∃ r', (s.advance cfg i).rpcs[i]? = some r' ∧ min 5 (r.stage.rank + 1) ≤ r'.stage.rank := by
  by_cases hdone : r.stage = .done
  · refine ⟨r,?_,by rw [hdone]; decide⟩
    rw [State.advance,hr]
    simpa only [hdone] using hr
  · obtain ⟨r',s',hrun,m⟩ := h.moves hr hdone
    refine ⟨r',?_,(min_le_right _ _).trans m.rank⟩
    rw [hrun,m.rpcs]
    exact List.getElem?_set_self (List.getElem?_eq_some_iff.mp hr).1

theorem Counts.iterate_rank (h : Counts cfg s) (hr : s.rpcs[i]? = some r) (n : ℕ) : Counts cfg ((State.advance cfg · i)^[n] s) ∧
    ∃ r', ((State.advance cfg · i)^[n] s).rpcs[i]? = some r' ∧ min 5 n ≤ r'.stage.rank := by
  induction n with
  | zero => exact ⟨h,r,hr,Nat.zero_le _⟩
  | succ n ih =>
    obtain ⟨hcounts,r',hr',hrank⟩ := ih
    obtain ⟨r'',hr'',hrank'⟩ := hcounts.advance_rank hr'
    rw [Function.iterate_succ_apply']
    exact ⟨hcounts.advance i,r'',hr'',by omega⟩

end Invariant

section Limits

/-- The requests of a subnet in one of two stages. -/
def State.requests (s : State P) (key : String) (stage stage' : Stage) : ℕ :=
  s.rpcs.countP fun r => (r.stage = stage ∨ r.stage = stage') ∧ cfg.subnetKey r.peer = key

/-- All that is promised of a state: the counters are those of the requests that hold something, within
the limits, and no request gives back what it does not have or keeps anything when it is done. -/
structure Respected (s : State P) : Prop where
  active_eq : s.count .active = ∑ p ∈ (s.rpcs.map Rpc.peer).toFinset, s.count (.peers p)
  peers_eq : ∀ p, p ∉ s.rpcs.map Rpc.peer → s.count (.peers p) = 0
  active_le : s.count .active ≤ 8
  peers_le : ∀ p, s.count (.peers p) ≤ 2
  subnet_eq : ∀ key, cfg.counted key = true →
    s.count (.subnet key) = s.requests cfg key .running .ended + s.requests cfg key .admitted .refused
  subnet_le : ∀ key, cfg.counted key = true → s.count (.subnet key) ≤ cfg.maxInflightRPCsPerSubnet
  released : ∀ r ∈ s.rpcs, ∀ res, r.calls.count (.release res) + (r.stage.holds r.large res).toNat = r.calls.count (.acquire res) ∧
    r.calls.count (.acquire res) ≤ 1
  ends : ∀ i < s.rpcs.length, ∃ r, ((State.advance cfg · i)^[5] s).rpcs[i]? = some r ∧ r.stage = .done

omit [DecidableEq P] in
theorem sum_countP {K : Type} [DecidableEq K] (l : List R) (q : R → Bool) (key : R → K) {F : Finset K} (hF : ∀ r ∈ l, key r ∈ F) :
    ∑ k ∈ F, ((l.countP fun r => q r && k = key r : ℕ) : ℤ) = (l.countP q : ℕ) := by
  induction l with
  | nil => simp
  | cons r l ih =>
    rw [List.forall_mem_cons] at hF
    simp only [List.countP_cons,Nat.cast_add,Finset.sum_add_distrib,ih hF.2]
    congr 1
    cases q r with
    | false => simp
    | true => simp [hF.1]

omit [DecidableEq P] in
theorem countP_add (l : List R) {q q₁ q₂ : R → Bool} (hq : ∀ r, (q r).toNat = (q₁ r).toNat + (q₂ r).toNat) :
    l.countP q = l.countP q₁ + l.countP q₂ := by
  induction l with
  | nil => rfl
  | cons r l ih =>
    have hr := hq r
    rw [List.countP_cons,List.countP_cons,List.countP_cons,ih]
    cases h : q r <;> cases h₁ : q₁ r <;> cases h₂ : q₂ r <;> simp_all <;> omega

/-- Whatever peers and handlers do and in whatever order, the limits hold and every slot comes back once. -/
theorem run_respected (events : List (Event P)) : Respected cfg (run cfg events) := by
  have h := counts_run cfg events
  refine ⟨?_,fun p hp => ?_,h.le _,fun p => h.le _,fun key hkey => ?_,fun key hkey => ?_,fun r hr res => ?_,fun i hi => ?_⟩
  · rw [h.count,Finset.sum_congr rfl fun p _ => h.count _]
    exact (sum_countP _ _ _ fun r hr => List.mem_toFinset.mpr (List.mem_map_of_mem hr)).symm
  · rw [h.count,Nat.cast_eq_zero,List.countP_eq_zero]
    rintro r hr hcounts
    simp only [Rpc.counts,Bool.and_eq_true,decide_eq_true_iff] at hcounts
    exact hp (hcounts.2 ▸ List.mem_map_of_mem hr)
  · rw [h.count,State.requests,State.requests,← Nat.cast_add,countP_add]
    intro r
    by_cases hk : key = cfg.subnetKey r.peer
    · subst hk
      cases hst : r.stage <;> simp [Rpc.counts,Stage.holds,hst,hkey]
    · simp [Rpc.counts,hk,Ne.symm hk]
  · have hle := h.le (.subnet key)
    have hpos : 0 < cfg.maxInflightRPCsPerSubnet := by simp [Config.counted] at hkey; exact hkey.2
    rwa [Config.limit,max_eq_right hpos.le] at hle
  · exact traces_balanced r.large r.stage res r.calls (h.traced r hr)
  · obtain ⟨-,r,hr,hrank⟩ := h.iterate_rank (List.getElem?_eq_getElem hi) 5
    refine ⟨r,hr,?_⟩
    revert hrank
    cases r.stage <;> decide

def sampleLimit (limit : ℤ) : Config Unit := ⟨fun _ => "10.0.0.0/24", 8, limit⟩

/-- Over a limit of one the loop has taken the slot and the handler does not run yet; without a limit the
handler runs and is not counted. -/
theorem inflight_uncounted :
    ((run (sampleLimit 1) [.accept () true, .advance 0]).count (.subnet "10.0.0.0/24") = 1 ∧
      (run (sampleLimit 1) [.accept () true, .advance 0]).requests (sampleLimit 1) "10.0.0.0/24" .running .ended = 0) ∧
    (run (sampleLimit 0) [.accept () true, .advance 0, .advance 0]).count (.subnet "10.0.0.0/24") = 0 ∧
      (run (sampleLimit 0) [.accept () true, .advance 0, .advance 0]).requests (sampleLimit 0) "10.0.0.0/24" .running .ended = 1 := by
  decide +kernel

end Limits

end QdayNode.Inflight
