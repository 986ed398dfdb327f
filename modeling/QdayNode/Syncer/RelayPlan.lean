import QdayNode.Library.Worklist
import QdayNode.Types.Transaction

/-!
# Relay plans

`syncer/txpool_relay.go` cuts an ordered pool snapshot into sets that a peer can check on
their own.  A set is filled with a transaction and those of its unconfirmed ancestors
that it does not hold yet, as long as the request stays within a limit of bytes; the
collection of the ancestors stops as soon as they alone exceed it.
-/
namespace QdayNode
open ByteString Worklist Outcome

variable {i j n size fuel : ℕ} {txn : V2Transaction} {inPacket needed stack : List ℕ}

def encodeRelayRequest (index : ChainIndex) (txns : List V2Transaction) : Bytes :=
  index.encode ++ encodeList V2Transaction.encode txns

structure TxpoolRelaySet where
  basis : ChainIndex
  txns : List V2Transaction

section Plan

variable (c : Crypto)

/-- `sizes[i]` and `parents[i]`. -/
structure RelayNode where
  size : ℕ
  parents : List ℕ

/-- What the first loop of `qdayPoolRelayPlan` collects. -/
structure RelayScan where
  nodes : List RelayNode
  outputs : SiacoinOutputID → Option ℕ

def V2SiacoinInput.Unconfirmed (sci : V2SiacoinInput) : Prop := sci.parent.stateElement.leafIndex = unassignedLeafIndex

instance (sci : V2SiacoinInput) : Decidable sci.Unconfirmed :=
  inferInstanceAs (Decidable (sci.parent.stateElement.leafIndex = unassignedLeafIndex))

def RelayScan.parentOf (scan : RelayScan) (sci : V2SiacoinInput) : Outcome ℕ :=
  match scan.outputs sci.parent.id with
  | none => fail "transaction pool snapshot is missing an unconfirmed parent"
  | some parent => .ok parent

def recordOutputs (txn : V2Transaction) (i : ℕ) (outputs : SiacoinOutputID → Option ℕ) : SiacoinOutputID → Option ℕ :=
  (List.range txn.siacoinOutputs.length).foldl
    (fun outputs j => Function.update outputs (siacoinOutputID c (txn.id c) j) (some i)) outputs

def RelayScan.add (scan : RelayScan) (txn : V2Transaction) : Outcome RelayScan := do
  let parents ← (txn.siacoinInputs.filter fun sci => sci.Unconfirmed).mapM scan.parentOf
  return ⟨scan.nodes ++ [⟨txn.encode.length, parents⟩], recordOutputs c txn scan.nodes.length scan.outputs⟩

/-- The ancestors of the transactions on the stack that are not in the packet, the last one found
first, and their size. -/
def collectNeeded (nodes : List RelayNode) (limit : ℤ) (inPacket : List ℕ) :
    ℕ → List ℕ → List ℕ → ℕ → Outcome (List ℕ × ℕ)
  | 0, _, _, _ => crash "too many steps"
  | _+1, needed, [], size => .ok (needed, size)
  | fuel+1, needed, j :: stack, size =>
    if limit < size then .ok (needed, size)
    else if j ∈ inPacket ∨ j ∈ needed then collectNeeded nodes limit inPacket fuel needed stack size
    else
      match nodes[j]? with
      | none => crash "index out of range"
      | some node =>
        collectNeeded nodes limit inPacket fuel (j :: needed) (node.parents.reverse ++ stack) (size + node.size)

/-- The state of the second loop. -/
structure RelayPacker where
  sets : List TxpoolRelaySet
  packet : List V2Transaction
  inPacket : List ℕ
  packetBytes : ℕ

def RelayPacker.flush (basis : ChainIndex) (st : RelayPacker) : RelayPacker where
  sets := if st.packet.isEmpty then st.sets else st.sets ++ [⟨basis, st.packet⟩]
  packet := []
  inPacket := []
  packetBytes := 0

def snapshotAt (txns : List V2Transaction) (j : ℕ) : Outcome V2Transaction :=
  match txns[j]? with
  | none => crash "index out of range"
  | some txn => .ok txn

/-- Every transaction is expanded once at most, so that this many steps are enough. -/
def stepBound (nodes : List RelayNode) : ℕ := (nodes.map fun node => node.parents.length).sum + 2

/-- The body of the second loop; the first argument bounds how often it is tried. -/
def packTxn (basis : ChainIndex) (txns : List V2Transaction) (nodes : List RelayNode) (limit : ℤ) :
    ℕ → RelayPacker → ℕ → Outcome RelayPacker
  | 0, _, _ => crash "too many steps"
  | fuel+1, st, i => do
      let (needed, size) ← collectNeeded nodes limit st.inPacket (stepBound nodes) [] [i] 0
      if limit < ((st.packetBytes + size : ℕ) : ℤ) ∧ ¬ st.packet.isEmpty then
        packTxn basis txns nodes limit fuel (st.flush basis) i
      else if limit < size then return st
      else
        let indices := needed.insertionSort (· ≤ ·)
        let added ← indices.mapM (snapshotAt txns)
        return { st with
          packet := st.packet ++ added
          inPacket := st.inPacket ++ indices
          packetBytes := st.packetBytes + size }

def requestOverhead : ℕ := 8 + 32 + 8

def qdayPoolRelayPlan (basis : ChainIndex) (txns : List V2Transaction) (maxRequestBytes : ℤ) :
    Outcome (List TxpoolRelaySet) := do
  let limit := maxRequestBytes - requestOverhead
  let scan ← txns.foldlM (RelayScan.add c) ⟨[], fun _ => none⟩
  let st ← (List.range txns.length).foldlM (packTxn basis txns scan.nodes limit 2) ⟨[], [], [], 0⟩
  return (st.flush basis).sets

end Plan

section Snapshot

variable (c : Crypto) (txns : List V2Transaction)

def V2Transaction.Creates (txn : V2Transaction) (id : SiacoinOutputID) : Prop :=
  ∃ k < txn.siacoinOutputs.length, siacoinOutputID c (txn.id c) k = id

/-- Position `j` of the snapshot creates the output. -/
def CreatesAt (j : ℕ) (id : SiacoinOutputID) : Prop := ∃ txn, txns[j]? = some txn ∧ txn.Creates c id

/-- Position `j` is the last one before `n` that creates the output. -/
structure LastCreator (n : ℕ) (id : SiacoinOutputID) (j : ℕ) : Prop where
  lt : j < n
  creates : CreatesAt c txns j id
  last : ∀ k, j < k → k < n → ¬ CreatesAt c txns k id

/-- The transaction at `i` spends an unconfirmed output of the one at `j`. -/
def SpendsFrom (i j : ℕ) : Prop :=
  ∃ txn, txns[i]? = some txn ∧ ∃ sci ∈ txn.siacoinInputs, sci.Unconfirmed ∧ LastCreator c txns i sci.parent.id j

/-- Every unconfirmed output that is spent was created before. -/
def CreatedEarlier : Prop :=
  ∀ i txn, txns[i]? = some txn → ∀ sci ∈ txn.siacoinInputs, sci.Unconfirmed → ∃ j < i, CreatesAt c txns j sci.parent.id

def pick (positions : List ℕ) : List V2Transaction := positions.filterMap (txns[·]?)

/-- The transaction at `i` and its unconfirmed ancestors, in the order of the snapshot. -/
noncomputable def ancestry (i : ℕ) : List ℕ :=
  open Classical in (List.range txns.length).filter fun j => j ∈ Reach (SpendsFrom c txns) {i}

variable {c txns}

theorem mem_ancestry : j ∈ ancestry c txns i ↔ j < txns.length ∧ j ∈ Reach (SpendsFrom c txns) {i} := by
  simp [ancestry]

theorem SpendsFrom.lt (h : SpendsFrom c txns i j) : j < i := by
  obtain ⟨txn,-,sci,-,-,hlast⟩ := h
  exact hlast.lt

theorem LastCreator.unique {k : ℕ} {id : SiacoinOutputID} (hj : LastCreator c txns n id j)
    (hk : LastCreator c txns n id k) : j = k := by
  rcases Nat.lt_trichotomy j k with hlt | heq | hlt
  · exact absurd hk.creates (hj.last k hlt hk.lt)
  · exact heq
  · exact absurd hj.creates (hk.last j hlt hj.lt)

end Snapshot

section Scan

variable {c : Crypto} {txns : List V2Transaction}

theorem recordOutputs_apply (txn : V2Transaction) (i : ℕ) (outputs : SiacoinOutputID → Option ℕ) (id : SiacoinOutputID) :
    (txn.Creates c id → recordOutputs c txn i outputs id = some i) ∧
    (¬ txn.Creates c id → recordOutputs c txn i outputs id = outputs id) := by
  rw [recordOutputs,V2Transaction.Creates]
  induction txn.siacoinOutputs.length with
  | zero => simp
  | succ n ih =>
    rw [List.range_succ,List.foldl_append,List.foldl_cons,List.foldl_nil,Function.update_apply]
    obtain ⟨hsome,hnone⟩ := ih
    constructor
    · rintro ⟨k,hk,rfl⟩
      split_ifs with hsame
      · rfl
      · refine hsome ⟨k,?_,rfl⟩
        have hne : k ≠ n := fun hkn => hsame (by rw [hkn])
        omega
    · intro hcreates
      rw [if_neg fun hsame => hcreates ⟨n,n.lt_succ_self,hsame.symm⟩]
      exact hnone fun ⟨k,hk,hid⟩ => hcreates ⟨k,by omega,hid⟩

def Recorded (c : Crypto) (txns : List V2Transaction) (n : ℕ) (outputs : SiacoinOutputID → Option ℕ) : Prop :=
  ∀ id, (∀ j, outputs id = some j → LastCreator c txns n id j) ∧ (outputs id = none → ∀ j < n, ¬ CreatesAt c txns j id)

theorem Recorded.succ {outputs : SiacoinOutputID → Option ℕ} (h : Recorded c txns n outputs)
    (htxn : txns[n]? = some txn) : Recorded c txns (n+1) (recordOutputs c txn n outputs) := by
  intro id
  obtain ⟨hnew,hold⟩ := recordOutputs_apply (c := c) txn n outputs id
  have hat : CreatesAt c txns n id ↔ txn.Creates c id := by
    constructor
    · rintro ⟨txn',htxn',hcreates⟩
      rw [htxn,Option.some.injEq] at htxn'
      rwa [htxn']
    · exact fun hcreates => ⟨txn,htxn,hcreates⟩
  by_cases hcreates : txn.Creates c id
  · rw [hnew hcreates]
    refine ⟨fun j hj => ?_,fun hnone => by cases hnone⟩
    cases hj
    exact ⟨n.lt_succ_self,hat.mpr hcreates,fun k hlt hle => by omega⟩
  · rw [hold hcreates]
    refine ⟨fun j hj => ?_,fun hnone j hj => ?_⟩
    · obtain ⟨hlt,hj,hlast⟩ := (h id).1 j hj
      refine ⟨by omega,hj,fun k hjk hk => ?_⟩
      rcases Nat.lt_succ_iff_lt_or_eq.mp hk with hk | rfl
      · exact hlast k hjk hk
      · exact mt hat.mp hcreates
    · rcases Nat.lt_succ_iff_lt_or_eq.mp hj with hj | rfl
      · exact (h id).2 hnone j hj
      · exact mt hat.mp hcreates

def Described (c : Crypto) (txns : List V2Transaction) (nodes : List RelayNode) : Prop :=
  ∀ i node, nodes[i]? = some node → ∃ txn, txns[i]? = some txn ∧ node.size = txn.encode.length ∧
    ∀ j, j ∈ node.parents ↔ SpendsFrom c txns i j

theorem scan_parents {scan : RelayScan} (hrecorded : Recorded c txns n scan.outputs)
    (hearlier : CreatedEarlier c txns) (htxn : txns[n]? = some txn) :
    ∃ parents, (txn.siacoinInputs.filter fun sci => sci.Unconfirmed).mapM scan.parentOf = .ok parents ∧
      ∀ j, j ∈ parents ↔ SpendsFrom c txns n j := by
  have hfind : ∀ sci ∈ txn.siacoinInputs.filter fun sci => sci.Unconfirmed,
      ∃ j, scan.parentOf sci = .ok j ∧ LastCreator c txns n sci.parent.id j := by
    intro sci hsci
    obtain ⟨hmem,hunconfirmed⟩ := List.mem_filter.mp hsci
    obtain ⟨k,hk,hcreates⟩ := hearlier n txn htxn sci hmem (of_decide_eq_true hunconfirmed)
    rw [RelayScan.parentOf]
    cases hout : scan.outputs sci.parent.id with
    | none => exact absurd hcreates ((hrecorded sci.parent.id).2 hout k hk)
    | some j => exact ⟨j,rfl,(hrecorded sci.parent.id).1 j hout⟩
  have hspends : ∀ j, SpendsFrom c txns n j ↔
      ∃ sci ∈ txn.siacoinInputs.filter fun sci => sci.Unconfirmed, LastCreator c txns n sci.parent.id j := by
    intro j
    constructor
    · rintro ⟨txn',htxn',sci,hmem,hunconfirmed,hlast⟩
      rw [htxn,Option.some.injEq] at htxn'
      subst htxn'
      exact ⟨sci,List.mem_filter.mpr ⟨hmem,decide_eq_true hunconfirmed⟩,hlast⟩
    · rintro ⟨sci,hsci,hlast⟩
      obtain ⟨hmem,hunconfirmed⟩ := List.mem_filter.mp hsci
      exact ⟨txn,htxn,sci,hmem,of_decide_eq_true hunconfirmed,hlast⟩
  simp only [hspends]
  generalize txn.siacoinInputs.filter _ = inputs at hfind ⊢
  induction inputs with
  | nil => exact ⟨[],rfl,by simp⟩
  | cons sci inputs ih =>
    rw [List.forall_mem_cons] at hfind
    obtain ⟨⟨j,hj,hlast⟩,hrest⟩ := hfind
    obtain ⟨parents,hrun,hmem⟩ := ih hrest
    refine ⟨j :: parents,?_,fun k => ?_⟩
    · rw [List.mapM_cons,hj,ok_bind,hrun]
      rfl
    · rw [List.mem_cons,hmem]
      simp only [List.mem_cons,exists_eq_or_imp]
      refine or_congr ?_ Iff.rfl
      constructor
      · rintro rfl
        exact hlast
      · exact fun hk => hk.unique hlast

theorem scan_described (hearlier : CreatedEarlier c txns) : ∃ scan,
    txns.foldlM (RelayScan.add c) ⟨[], fun _ => none⟩ = .ok scan ∧
      scan.nodes.length = txns.length ∧ Described c txns scan.nodes := by
  have hloop := foldlM_induct (f := RelayScan.add c) (l := txns) (s := ⟨[],fun _ => none⟩)
    (P := fun pre scan => scan.nodes.length = pre.length ∧ Recorded c txns pre.length scan.outputs ∧
      Described c txns scan.nodes)
    (fun pre txn post scan htxns hpre => by
      obtain ⟨hlen,hrecorded,hdescribed⟩ := hpre
      have htxn : txns[pre.length]? = some txn := by
        rw [htxns,List.getElem?_append_right le_rfl,Nat.sub_self,List.getElem?_cons_zero]
      obtain ⟨parents,hparents,hmem⟩ := scan_parents hrecorded hearlier htxn
      refine ⟨_,by rw [RelayScan.add,hparents]; rfl,?_,?_,?_⟩
      · rw [List.length_append,List.length_append,hlen]
        rfl
      · rw [List.length_append,List.length_singleton,hlen]
        exact hrecorded.succ htxn
      · intro i node hnode
        dsimp only at hnode
        rw [List.getElem?_append] at hnode
        split_ifs at hnode with hlt
        · exact hdescribed i node hnode
        · rw [List.getElem?_singleton] at hnode
          split_ifs at hnode with hzero
          cases hnode
          obtain rfl : i = pre.length := by omega
          exact ⟨txn,htxn,rfl,hmem⟩)
    ⟨rfl,fun id => ⟨fun j hj => (by cases hj),fun _ j hj => absurd hj j.not_lt_zero⟩,fun i node hnode => by cases hnode⟩
  obtain ⟨scan,hrun,hlen,-,hdescribed⟩ := hloop
  exact ⟨scan,hrun,hlen,hdescribed⟩

end Scan

section Sizes

variable {c : Crypto} {txns : List V2Transaction}

def txnBytes (txns : List V2Transaction) (j : ℕ) : ℕ := txns[j]?.elim 0 fun txn => txn.encode.length

def totalBytes (txns : List V2Transaction) (positions : List ℕ) : ℕ := (positions.map (txnBytes txns)).sum

variable {positions : List ℕ}

theorem pick_eq_map (hrange : ∀ j ∈ positions, j < txns.length) :
    (pick txns positions).map some = positions.map fun j => txns[j]? := by
  induction positions with
  | nil => rfl
  | cons j positions ih =>
    rw [List.forall_mem_cons] at hrange
    have hrest := ih hrange.2
    rw [pick] at hrest ⊢
    rw [List.filterMap_cons_some (List.getElem?_eq_getElem hrange.1),List.map_cons,List.map_cons,hrest,
      List.getElem?_eq_getElem hrange.1]

theorem pick_isEmpty (hrange : ∀ j ∈ positions, j < txns.length) :
    (pick txns positions).isEmpty = positions.isEmpty := by
  have hlen := congrArg List.length (pick_eq_map hrange)
  rw [List.length_map,List.length_map] at hlen
  rw [Bool.eq_iff_iff,List.isEmpty_iff_length_eq_zero,List.isEmpty_iff_length_eq_zero,hlen]

theorem pick_append (first second : List ℕ) : pick txns (first ++ second) = pick txns first ++ pick txns second :=
  List.filterMap_append

theorem mapM_snapshotAt (hrange : ∀ j ∈ positions, j < txns.length) :
    positions.mapM (snapshotAt txns) = .ok (pick txns positions) := by
  induction positions with
  | nil => rfl
  | cons j positions ih =>
    rw [List.forall_mem_cons] at hrange
    have hfirst := List.getElem?_eq_getElem hrange.1
    rw [List.mapM_cons,ih hrange.2,snapshotAt,hfirst,pick,pick,List.filterMap_cons_some hfirst]
    rfl

theorem length_encodeRelayRequest (basis : ChainIndex) (hrange : ∀ j ∈ positions, j < txns.length) :
    (encodeRelayRequest basis (pick txns positions)).length = requestOverhead + totalBytes txns positions := by
  have hbytes : ((pick txns positions).flatMap V2Transaction.encode).length = totalBytes txns positions := by
    have hsizes := congrArg (List.map fun o : Option V2Transaction => o.elim 0 fun txn => txn.encode.length)
      (pick_eq_map hrange)
    rw [List.map_map,List.map_map] at hsizes
    rw [List.length_flatMap,totalBytes]
    exact congrArg List.sum hsizes
  rw [encodeRelayRequest,List.length_append,encodeList,List.length_append,hbytes,ChainIndex.encode,
    List.length_append,length_encodeUint64,length_encodeUint64,basis.id.property,requestOverhead]
  omega

theorem totalBytes_append (first second : List ℕ) :
    totalBytes txns (first ++ second) = totalBytes txns first + totalBytes txns second := by
  rw [totalBytes,List.map_append,List.sum_append]
  rfl

theorem totalBytes_perm {first second : List ℕ} (h : first.Perm second) : totalBytes txns first = totalBytes txns second :=
  (h.map _).sum_eq

theorem totalBytes_le {all : List ℕ} (hnodup : positions.Nodup) (hsub : positions ⊆ all) :
    totalBytes txns positions ≤ totalBytes txns all := by
  obtain ⟨part,hperm,hpart⟩ := List.subperm_of_subset hnodup hsub
  rw [← totalBytes_perm hperm]
  exact (hpart.map (txnBytes txns)).sum_le_sum fun n _ => Nat.zero_le n

end Sizes

section Collect

variable {c : Crypto} {txns : List V2Transaction} {nodes : List RelayNode} {limit : ℤ}

theorem le_of_reach (h : j ∈ Reach (SpendsFrom c txns) {i}) : j ≤ i := by
  have hall : Reach (SpendsFrom c txns) {i} ⊆ {j | j ≤ i} := by
    apply reach_subset
    · rintro _ rfl
      exact Nat.le_refl _
    · intro x hx y hxy
      exact hxy.lt.le.trans hx
  exact hall h

/-- The state of the search for the ancestors of `i` that are not in the packet. -/
structure Collects (c : Crypto) (txns : List V2Transaction) (inPacket : List ℕ) (i : ℕ) (needed stack : List ℕ) (size : ℕ) :
    Prop where
  explores : Explores (SpendsFrom c txns) {i} {j | j ∈ inPacket} needed stack
  nodup : needed.Nodup
  apart : ∀ j ∈ needed, j ∉ inPacket
  size : size = totalBytes txns needed

theorem Collects.init : Collects c txns inPacket i [] [i] 0 where
  explores := Explores.init fun x => by simp
  nodup := List.nodup_nil
  apart j hj := by cases hj
  size := rfl

theorem Collects.drop (h : Collects c txns inPacket i needed (j :: stack) size)
    (hj : j ∈ inPacket ∨ j ∈ needed) : Collects c txns inPacket i needed stack size :=
  { h with explores := h.explores.drop hj.symm }

theorem Collects.expand {node : RelayNode}
    (h : Collects c txns inPacket i needed (j :: stack) size) (hj : ¬ (j ∈ inPacket ∨ j ∈ needed))
    (hdescribed : Described c txns nodes) (hnode : nodes[j]? = some node) :
    Collects c txns inPacket i (j :: needed) (node.parents.reverse ++ stack) (size + node.size) := by
  obtain ⟨txn,htxn,hsize,hparents⟩ := hdescribed j node hnode
  obtain ⟨hout,hnew⟩ := not_or.mp hj
  refine ⟨h.explores.expand (fun y => List.mem_cons) ?_ ?_ ?_,List.nodup_cons.mpr ⟨hnew,h.nodup⟩,?_,?_⟩
  · intro y hy
    exact List.mem_append_right _ hy
  · intro y hy
    rw [List.mem_append,List.mem_reverse,hparents] at hy
    exact hy.symm
  · intro y hy
    refine .inr (.inl (List.mem_append_left _ ?_))
    rw [List.mem_reverse,hparents]
    exact hy
  · exact List.forall_mem_cons.mpr ⟨hout,h.apart⟩
  · rw [h.size,totalBytes,totalBytes,List.map_cons,List.sum_cons,hsize,txnBytes,htxn,Nat.add_comm]
    rfl

/-- How many parents the transactions have that were not expanded yet. -/
def unexpanded (nodes : List RelayNode) (needed : List ℕ) : ℕ :=
  ∑ j ∈ Finset.range nodes.length \ needed.toFinset, nodes[j]?.elim 0 fun node => node.parents.length

theorem unexpanded_cons {node : RelayNode} (hnode : nodes[j]? = some node) (hj : j ∉ needed) :
    node.parents.length + unexpanded nodes (j :: needed) = unexpanded nodes needed := by
  have hlt := (List.getElem?_eq_some_iff.mp hnode).1
  have hmem : j ∈ Finset.range nodes.length \ needed.toFinset := by simp [hlt,hj]
  have herase : Finset.range nodes.length \ (j :: needed).toFinset =
      (Finset.range nodes.length \ needed.toFinset).erase j := by
    ext k
    simp only [List.toFinset_cons,Finset.mem_sdiff,Finset.mem_insert,Finset.mem_erase]
    tauto
  rw [unexpanded,unexpanded,herase,← Finset.add_sum_erase _ _ hmem,hnode]
  rfl

theorem unexpanded_nil : unexpanded nodes [] + 2 = stepBound nodes := by
  have hmap : (List.range nodes.length).map (fun j => nodes[j]?.elim 0 fun node => node.parents.length) =
      nodes.map fun node => node.parents.length := by
    apply List.ext_getElem
    · simp
    · intro k hk hk'
      simp only [List.length_map] at hk'
      simp [hk']
  rw [stepBound,← hmap,unexpanded,List.toFinset_nil,Finset.sdiff_empty]
  rfl

/-- The search returns.  If it did not stop because of the size, it is complete. -/
theorem collectNeeded_spec (hdescribed : Described c txns nodes) (hlen : nodes.length = txns.length) (hi : i < txns.length)
    (h : Collects c txns inPacket i needed stack size)
    (hfuel : stack.length + unexpanded nodes needed < fuel) :
    ∃ needed' size' stack', collectNeeded nodes limit inPacket fuel needed stack size = .ok (needed', size') ∧
      Collects c txns inPacket i needed' stack' size' ∧ ((size' : ℤ) ≤ limit → stack' = []) := by
  induction fuel generalizing needed stack size with
  | zero => omega
  | succ fuel ih =>
    cases stack with
    | nil => exact ⟨needed,size,[],rfl,h,fun _ => rfl⟩
    | cons j stack =>
      rw [List.length_cons] at hfuel
      rw [collectNeeded]
      by_cases hover : limit < size
      · rw [if_pos hover]
        exact ⟨needed,size,j :: stack,rfl,h,fun hle => absurd hover (not_lt.mpr hle)⟩
      · rw [if_neg hover]
        by_cases hknown : j ∈ inPacket ∨ j ∈ needed
        · rw [if_pos hknown]
          exact ih (h.drop hknown) (by omega)
        · rw [if_neg hknown]
          have hj := le_of_reach (h.explores.reached j (.inr List.mem_cons_self))
          have hnode := List.getElem?_eq_getElem (show j < nodes.length by omega)
          have hcount := unexpanded_cons hnode (not_or.mp hknown).2
          simp only [hnode]
          refine ih (h.expand hknown hdescribed hnode) ?_
          rw [List.length_append,List.length_reverse]
          omega

end Collect

section Packing

variable {c : Crypto} {basis : ChainIndex} {txns : List V2Transaction} {maxRequestBytes : ℤ}

/-- A set of positions that can be relayed on its own. -/
structure Standalone (c : Crypto) (basis : ChainIndex) (txns : List V2Transaction) (maxRequestBytes : ℤ)
    (positions : List ℕ) : Prop where
  inside : ∀ i ∈ positions, i < txns.length
  nodup : positions.Nodup
  ancestors : ∀ pre i post, positions = pre ++ i :: post → ∀ j, Relation.TransGen (SpendsFrom c txns) i j → j ∈ pre
  within : ((encodeRelayRequest basis (pick txns positions)).length : ℤ) ≤ maxRequestBytes

/-- The transaction at `i` and its ancestors fit in one request. -/
def Fits (c : Crypto) (basis : ChainIndex) (txns : List V2Transaction) (maxRequestBytes : ℤ) (i : ℕ) : Prop :=
  ((encodeRelayRequest basis (pick txns (ancestry c txns i))).length : ℤ) ≤ maxRequestBytes

/-- The state of the second loop when it has come to `n`, with the positions in each set. -/
structure Packs (c : Crypto) (basis : ChainIndex) (txns : List V2Transaction) (maxRequestBytes : ℤ) (n : ℕ)
    (packets : List (List ℕ)) (st : RelayPacker) : Prop where
  sets : st.sets = packets.map fun positions => ⟨basis, pick txns positions⟩
  flushed : ∀ positions ∈ packets, Standalone c basis txns maxRequestBytes positions
  packet : st.packet = pick txns st.inPacket
  bytes : st.packetBytes = totalBytes txns st.inPacket
  below : ∀ i ∈ st.inPacket, i < n
  nodup : st.inPacket.Nodup
  behind : Behind (SpendsFrom c txns) st.inPacket
  within : st.inPacket ≠ [] → ((requestOverhead + st.packetBytes : ℕ) : ℤ) ≤ maxRequestBytes
  covered : ∀ i < n, Fits c basis txns maxRequestBytes i → i ∈ st.inPacket ∨ ∃ positions ∈ packets, i ∈ positions

variable {packets : List (List ℕ)} {st : RelayPacker}

theorem Packs.init : Packs c basis txns maxRequestBytes 0 [] ⟨[], [], [], 0⟩ where
  sets := rfl
  flushed p hp := by cases hp
  packet := rfl
  bytes := rfl
  below i hi := by cases hi
  nodup := List.nodup_nil
  behind := behind_nil
  within h := absurd rfl h
  covered i hi := absurd hi i.not_lt_zero

theorem Packs.isEmpty (h : Packs c basis txns maxRequestBytes n packets st) (hn : n ≤ txns.length) :
    st.packet.isEmpty = st.inPacket.isEmpty := by
  rw [h.packet]
  exact pick_isEmpty fun j hj => (h.below j hj).trans_le hn

/-- What is flushed can be relayed on its own. -/
theorem Packs.flush (h : Packs c basis txns maxRequestBytes n packets st) (hn : n ≤ txns.length) :
    Packs c basis txns maxRequestBytes n (if st.packet.isEmpty then packets else packets ++ [st.inPacket])
      (st.flush basis) := by
  have hinside : ∀ j ∈ st.inPacket, j < txns.length := fun j hj => (h.below j hj).trans_le hn
  have hempty := h.isEmpty hn
  refine ⟨?_,?_,rfl,rfl,fun j hj => absurd hj List.not_mem_nil,List.nodup_nil,behind_nil,fun hne => absurd rfl hne,?_⟩
  · rw [RelayPacker.flush,h.sets]
    split_ifs
    · rfl
    · rw [List.map_append,h.packet]
      rfl
  · split_ifs with hnone
    · exact h.flushed
    · refine List.forall_mem_append.mpr ⟨h.flushed,fun positions hp => ?_⟩
      obtain rfl := List.mem_singleton.mp hp
      refine ⟨hinside,h.nodup,fun pre i post hsplit j hj => h.behind.transGen hsplit hj,?_⟩
      rw [length_encodeRelayRequest basis hinside,← h.bytes]
      refine h.within fun hnil => hnone ?_
      rw [hempty,hnil]
      rfl
  · intro i hi hfits
    refine .inr ?_
    split_ifs with hnone
    · rcases h.covered i hi hfits with hmem | hmem
      · rw [hempty,List.isEmpty_iff] at hnone
        rw [hnone] at hmem
        cases hmem
      · exact hmem
    · rcases h.covered i hi hfits with hmem | ⟨positions,hp,hmem⟩
      · exact ⟨st.inPacket,List.mem_append_right _ (List.mem_singleton_self _),hmem⟩
      · exact ⟨positions,List.mem_append_left _ hp,hmem⟩

theorem Collects.le_ancestry (h : Collects c txns inPacket i needed stack size)
    (hi : i < txns.length) (hfits : Fits c basis txns maxRequestBytes i) :
    ((requestOverhead + size : ℕ) : ℤ) ≤ maxRequestBytes := by
  have hinside : ∀ j ∈ ancestry c txns i, j < txns.length := fun j hj => (mem_ancestry.mp hj).1
  have hsub : needed ⊆ ancestry c txns i := by
    intro j hj
    have hreach := h.explores.reached j (.inl hj)
    exact mem_ancestry.mpr ⟨(le_of_reach hreach).trans_lt hi,hreach⟩
  have hle : totalBytes txns needed ≤ totalBytes txns (ancestry c txns i) := totalBytes_le h.nodup hsub
  rw [Fits,length_encodeRelayRequest basis hinside] at hfits
  rw [h.size]
  omega

theorem Packs.add (h : Packs c basis txns maxRequestBytes n packets st)
    (hn : n < txns.length) (hcollects : Collects c txns st.inPacket n needed [] size)
    (hwithin : ((requestOverhead + (st.packetBytes + size) : ℕ) : ℤ) ≤ maxRequestBytes) :
    Packs c basis txns maxRequestBytes (n+1) packets
      { st with
        packet := st.packet ++ pick txns (needed.insertionSort (· ≤ ·))
        inPacket := st.inPacket ++ needed.insertionSort (· ≤ ·)
        packetBytes := st.packetBytes + size } := by
  have hperm := List.perm_insertionSort (· ≤ ·) needed
  have hmem : ∀ j, j ∈ needed.insertionSort (· ≤ ·) ↔ j ∈ needed := fun j => hperm.mem_iff
  have hle : ∀ j ∈ needed, j ≤ n := fun j hj => le_of_reach (hcollects.explores.reached j (.inl hj))
  have hself : n ∈ needed := by
    have hseen := hcollects.explores.begun n rfl
    rcases hseen with hseen | hseen | hseen
    · exact hseen
    · cases hseen
    · exact absurd (h.below n hseen) (lt_irrefl n)
  refine ⟨h.sets,h.flushed,?_,?_,?_,?_,?_,fun _ => hwithin,?_⟩
  · dsimp only
    rw [pick_append,h.packet]
  · dsimp only
    rw [totalBytes_append,totalBytes_perm hperm,h.bytes,hcollects.size]
  · refine List.forall_mem_append.mpr ⟨fun j hj => (h.below j hj).trans n.lt_succ_self,fun j hj => ?_⟩
    exact Nat.lt_succ_of_le (hle j ((hmem j).mp hj))
  · refine h.nodup.append (hperm.nodup_iff.mpr hcollects.nodup) fun j hj hj' => ?_
    exact hcollects.apart j ((hmem j).mp hj') hj
  · refine h.behind.append (fun x y => SpendsFrom.lt) (List.pairwise_insertionSort _ _) fun x hx y hxy => ?_
    rw [hmem] at hx ⊢
    have hnext := hcollects.explores.closed x hx y hxy
    rcases hnext with hy | hy | hy
    · exact .inr hy
    · cases hy
    · exact .inl hy
  · intro i hi hfits
    rcases Nat.lt_succ_iff_lt_or_eq.mp hi with hi | rfl
    · exact (h.covered i hi hfits).imp_left (List.mem_append_left _)
    · exact .inl (List.mem_append_right _ ((hmem i).mpr hself))

theorem Packs.skip (h : Packs c basis txns maxRequestBytes n packets st) (hfits : ¬ Fits c basis txns maxRequestBytes n) :
    Packs c basis txns maxRequestBytes (n+1) packets st := by
  refine { h with below := fun i hi => (h.below i hi).trans n.lt_succ_self, covered := fun i hi hi' => ?_ }
  rcases Nat.lt_succ_iff_lt_or_eq.mp hi with hi | rfl
  · exact h.covered i hi hi'
  · exact absurd hi' hfits

variable {nodes : List RelayNode}

/-- The body of the loop: it flushes once at most, as the packet is empty afterwards. -/
theorem packTxn_spec (hdescribed : Described c txns nodes) (hlen : nodes.length = txns.length) (hn : n < txns.length)
    (hfuel : 2 ≤ fuel ∨ 1 ≤ fuel ∧ st.packet.isEmpty)
    (h : Packs c basis txns maxRequestBytes n packets st) :
    ∃ st' packets', packTxn basis txns nodes (maxRequestBytes - requestOverhead) fuel st n = .ok st' ∧
      Packs c basis txns maxRequestBytes (n+1) packets' st' := by
  induction fuel generalizing st packets with
  | zero => omega
  | succ fuel ih =>
    have hinit : Collects c txns st.inPacket n [] [n] 0 := Collects.init
    have hbound : [n].length + unexpanded nodes [] < stepBound nodes := by
      rw [← unexpanded_nil,List.length_singleton]
      omega
    obtain ⟨needed,size,stack,hrun,hcollects,hcomplete⟩ :
        ∃ needed size stack, collectNeeded nodes (maxRequestBytes - requestOverhead) st.inPacket (stepBound nodes) [] [n] 0 =
          .ok (needed, size) ∧ Collects c txns st.inPacket n needed stack size ∧
            ((size : ℤ) ≤ maxRequestBytes - requestOverhead → stack = []) :=
      collectNeeded_spec hdescribed hlen hn hinit hbound
    rw [packTxn,hrun,ok_bind]
    dsimp only
    split_ifs with hflush hover
    · refine ih (.inr ⟨?_,rfl⟩) (h.flush hn.le)
      rcases hfuel with hfuel | hfuel
      · omega
      · exact absurd hfuel.2 hflush.2
    · refine ⟨st,packets,rfl,h.skip fun hfits => ?_⟩
      have hle := hcollects.le_ancestry hn hfits
      omega
    · obtain rfl := hcomplete (by omega)
      have hwithin : ((requestOverhead + (st.packetBytes + size) : ℕ) : ℤ) ≤ maxRequestBytes := by
        by_cases hempty : st.packet.isEmpty
        · rw [h.isEmpty hn.le,List.isEmpty_iff] at hempty
          have hzero : st.packetBytes = 0 := by
            rw [h.bytes,hempty]
            rfl
          omega
        · have hroom := not_lt.mp fun hover => hflush ⟨hover,hempty⟩
          omega
      have hinside : ∀ j ∈ needed.insertionSort (· ≤ ·), j < txns.length := by
        intro j hj
        rw [(List.perm_insertionSort (· ≤ ·) needed).mem_iff] at hj
        exact (le_of_reach (hcollects.explores.reached j (.inl hj))).trans_lt hn
      rw [mapM_snapshotAt hinside,ok_bind]
      exact ⟨_,packets,rfl,h.add hn hcollects hwithin⟩

/-- The plan consists of sets that can be relayed on their own, and holds every transaction that fits in one. -/
theorem qdayPoolRelayPlan_standalone (c : Crypto) (basis : ChainIndex) (txns : List V2Transaction) (maxRequestBytes : ℤ)
    (hearlier : CreatedEarlier c txns) :
    ∃ packets : List (List ℕ),
      qdayPoolRelayPlan c basis txns maxRequestBytes =
        .ok (packets.map fun positions => ⟨basis, pick txns positions⟩) ∧
      (∀ positions ∈ packets, Standalone c basis txns maxRequestBytes positions) ∧
      ∀ i < txns.length, Fits c basis txns maxRequestBytes i → ∃ positions ∈ packets, i ∈ positions := by
  obtain ⟨scan,hscan,hlen,hdescribed⟩ := scan_described hearlier
  have hloop := foldlM_induct (l := List.range txns.length)
    (f := packTxn basis txns scan.nodes (maxRequestBytes - requestOverhead) 2) (s := ⟨[],[],[],0⟩)
    (P := fun pre st => ∃ packets, Packs c basis txns maxRequestBytes pre.length packets st)
    (fun pre i post st hrange hpre => by
      obtain ⟨packets,hpacks⟩ := hpre
      have hi : i = pre.length ∧ pre.length < txns.length := by
        have hget := congrArg (fun l : List ℕ => l[pre.length]?) hrange
        simp only [List.getElem?_append_right le_rfl,Nat.sub_self,List.getElem?_cons_zero,
          List.getElem?_eq_some_iff,List.getElem_range,List.length_range] at hget
        obtain ⟨hlt,hi⟩ := hget
        exact ⟨hi.symm,hlt⟩
      obtain ⟨rfl,hn⟩ := hi
      obtain ⟨st',packets',hrun,hpacks'⟩ := packTxn_spec hdescribed hlen hn (.inl le_rfl) hpacks
      refine ⟨st',hrun,packets',?_⟩
      rw [List.length_append,List.length_singleton]
      exact hpacks')
    ⟨[],Packs.init⟩
  obtain ⟨st,hrun,packets,hpacks⟩ := hloop
  rw [List.length_range] at hpacks
  have hdone := hpacks.flush le_rfl
  refine ⟨_,?_,hdone.flushed,fun i hi hfits => ?_⟩
  · rw [qdayPoolRelayPlan,hscan,ok_bind,hrun,ok_bind,← hdone.sets]
    rfl
  · exact (hdone.covered i hi hfits).resolve_left List.not_mem_nil

def sampleRelayParent : V2Transaction where
  siacoinOutputs := List.replicate 2 ⟨⟨1, 0⟩, default⟩

def sampleRelayChild (k : ℕ) : V2Transaction where
  siacoinInputs := [⟨⟨siacoinOutputID sampleCrypto (sampleRelayParent.id sampleCrypto) k, ⟨unassignedLeafIndex, []⟩,
    ⟨⟨1, 0⟩, default⟩, 0⟩, ⟨.publicKey default, [], []⟩⟩]

def sampleRelayFamily : List V2Transaction := [sampleRelayParent, sampleRelayChild 0, sampleRelayChild 1]

theorem sampleRelayFamily_createdEarlier : CreatedEarlier sampleCrypto sampleRelayFamily := by
  have hchild : ∀ k < 2, ∀ i txn, 0 < i → txn = sampleRelayChild k → ∀ sci ∈ txn.siacoinInputs,
      ∃ j < i, CreatesAt sampleCrypto sampleRelayFamily j sci.parent.id := by
    rintro k hk i txn hi rfl sci hsci
    obtain rfl := List.mem_singleton.mp hsci
    exact ⟨0,hi,sampleRelayParent,rfl,k,hk,rfl⟩
  intro i txn htxn sci hsci _
  match i with
  | 0 =>
    cases htxn
    cases hsci
  | 1 => exact hchild 0 (by omega) 1 txn (by omega) (Option.some.inj htxn).symm sci hsci
  | 2 => exact hchild 1 (by omega) 2 txn (by omega) (Option.some.inj htxn).symm sci hsci
  | i+3 => cases htxn

-- three transactions do not fit in 400 bytes, so the parent is sent with each of its children
example : (qdayPoolRelayPlan sampleCrypto ⟨0, default⟩ sampleRelayFamily 400).map (fun sets => sets.map fun set => set.txns.length) =
    .ok [2, 2] := by decide +kernel

theorem qdayPoolRelayPlan_standalone_family : ∃ packets : List (List ℕ),
    qdayPoolRelayPlan sampleCrypto ⟨0, default⟩ sampleRelayFamily 400 =
      .ok (packets.map fun positions => ⟨⟨0, default⟩, pick sampleRelayFamily positions⟩) ∧
    (∀ positions ∈ packets, Standalone sampleCrypto ⟨0, default⟩ sampleRelayFamily 400 positions) ∧
    ∀ i < 3, Fits sampleCrypto ⟨0, default⟩ sampleRelayFamily 400 i → ∃ positions ∈ packets, i ∈ positions :=
  qdayPoolRelayPlan_standalone sampleCrypto ⟨0,default⟩ sampleRelayFamily 400 sampleRelayFamily_createdEarlier

end Packing

end QdayNode
