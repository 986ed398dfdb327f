import QdayNode.Manager.Runs

/-!
# The best chain

What the manager's tip, its index of the best chain and the stored states say about the
chain, and what a call of `AddBlocks` leaves of them.  The store keeps whole seconds, so
the states that `AddValidatedV2Blocks` is given have to come from blocks with whole
seconds; and a block whose body was pruned is not recognised when it comes again, so its
state is overwritten by what its header alone leads to.
-/
namespace QdayNode
open ByteString Procedure Outcome

variable {cfg : Config} {m : QdayManifest} {S : Set Bytes} {M M' : Manager} {bl : List Block} {ch : Chain}

section Path

theorem Manager.At.bestIndex (h : M.At cfg m bl ch) (height : UInt64) :
    M.store.bestIndex height = ((branchIDs cfg.crypto m bl)[height.toNat]?).map fun id => ⟨height, id⟩ := by
  rw [Store.bestIndex,h.best]

theorem Manager.At.block_of_unpruned (h : M.At cfg m bl ch) (hset : Setting cfg.crypto m S M.ingested)
    (hunpruned : ∀ id, ¬ M.store.Pruned id) {pre post : List Block} {b : Block} (hsplit : bl = pre ++ b :: post) :
    M.store.block (b.id cfg.crypto) = some (b, some {}) := by
  rw [hsplit,← List.singleton_append,← List.append_assoc] at h
  obtain ⟨ch',hch'⟩ := h.branch.split
  have htip := (h.held.of_prefix (List.prefix_append _ _)).tip hch'.run
  have hid : ch'.state.index.id = b.id cfg.crypto := by rw [hch'.index hset,lastBlock_snoc]
  obtain ⟨sb,hsb,-,hnone | ⟨hbody,hsupplement⟩⟩ := htip.block
  · exact absurd ⟨sb,hsb,hnone⟩ (hunpruned _)
  · rw [hid] at hsb
    rw [Store.block,hsb,Option.bind_some,hbody,hsupplement,lastBlock_snoc,supplementOf_snoc]
    rfl

/-- A chain of valid blocks behind the tip: the index of the best chain is its path from the genesis block,
every block passes `ValidateBlock` on the stored state of its parent, and the stored states and the tip state
have the encodings of the states that `ApplyBlock` leads to.  In no sequence of calls without pruning is
this ever lost, if the blocks given to `AddValidatedV2Blocks` come with the states of sequential validation
and have whole seconds. -/
theorem bestChain_exact (hreach : Reachable cfg m (Unpruned cfg) M) (hset : Setting cfg.crypto m S M.ingested) :
    ∃ bl ch, runChain cfg.crypto noTimestamp m bl = .ok ch ∧
      (∀ height, M.store.bestIndex height =
        ((branchIDs cfg.crypto m bl)[height.toNat]?).map fun id => ⟨height, id⟩) ∧
      M.tipState.index = ⟨UInt64.ofNat bl.length, (lastBlock m bl).id cfg.crypto⟩ ∧
      M.tipState.encode = ch.state.encode ∧
      (∀ pre ch', pre <+: bl → runChain cfg.crypto noTimestamp m pre = .ok ch' →
        ∃ s, M.store.state ((lastBlock m pre).id cfg.crypto) = some s ∧ s.encode = ch'.state.encode) ∧
      ∀ pre b post, bl = pre ++ b :: post → M.store.block (b.id cfg.crypto) = some (b, some {}) ∧
        b.parentID = (lastBlock m pre).id cfg.crypto ∧
        ∃ s, M.store.state b.parentID = some s ∧ validateBlock cfg.crypto s b {} = .ok () := by
  obtain ⟨bl,ch,h⟩ := hreach.proper.at_end hset
  refine ⟨bl,ch,h.branch.run,h.bestIndex,?_,by rw [h.tip],?_,?_⟩
  · rw [h.tip]
    exact h.branch.index hset
  · intro pre ch' hpre hrun
    have hbranch : Branch cfg.crypto m M.ingested pre ch' := ⟨hrun,fun b hb => h.branch.mem b (hpre.subset hb)⟩
    have htip := h.held pre ch' hpre hrun
    have hindex := hbranch.index hset
    refine ⟨ch'.state,?_,rfl⟩
    rw [← htip.state,hindex]
  · intro pre b post hsplit
    refine ⟨h.block_of_unpruned hset hreach.unpruned hsplit,?_⟩
    rw [hsplit,← List.singleton_append,← List.append_assoc] at h
    obtain ⟨ch',hch'⟩ := h.branch.split
    obtain ⟨before,hbefore,-,hext⟩ := hch'.snoc_inv
    have hvalid := (Chain.extend_inv hext).1
    have hparent := (block_accepted hvalid).parentID
    have htip := h.held pre before ((List.prefix_append pre [b]).trans (List.prefix_append _ _)) hbefore.run
    refine ⟨?_,before.state,?_,hvalid⟩
    · rw [hparent,hbefore.index hset]
    · rw [hparent,htip.state]

theorem bestChain_exact_sample : ∃ S M b M', sampleAdded = .ok (M, b, M') ∧
    Reachable sampleConfig sampleManifest (Unpruned sampleConfig) M' ∧ Setting sampleCrypto sampleManifest S M'.ingested ∧
    M'.tipState.index.id = b.id sampleCrypto ∧ ∃ bl ch, runChain sampleCrypto noTimestamp sampleManifest bl = .ok ch ∧
      M'.tipState.index = ⟨UInt64.ofNat bl.length, (lastBlock sampleManifest bl).id sampleCrypto⟩ ∧
      M'.tipState.encode = ch.state.encode := by
  obtain ⟨S,M,b,M',hadded,htip,hset⟩ := sampleAdded_setting
  obtain ⟨-,-,hreach⟩ := sampleAdded_reachable hadded
  obtain ⟨bl,ch,hrun,-,hindex,hencode,-⟩ := bestChain_exact hreach hset
  exact ⟨S,M,b,M',hadded,hreach,hset,htip,bl,ch,hrun,hindex,hencode⟩

def sampleFraction : Outcome (Manager × Block × State × List State × Manager) := do
  let M ← newManager sampleCrypto sampleManifest
  let b ← sampleMined M.tipState (sampleTime.add 500000000) 0 0
  match M.store.state b.parentID with
  | none => fail "missing parent"
  | some parent => do
      let states ← sequentialStates sampleCrypto parent [b]
      let (_, M') ← exec (Manager.addValidatedV2Blocks sampleConfig sampleTime [b] states) M
      return (M, b, parent, states, M')

/-- The stored block has lost the fraction, so the tip state is not the one that was stored for the block. -/
theorem storedState_fraction : ∃ M b parent states r M', newManager sampleCrypto sampleManifest = .ok M ∧
    M.store.state b.parentID = some parent ∧ sequentialStates sampleCrypto parent [b] = .ok states ∧
    exec (Manager.addValidatedV2Blocks sampleConfig sampleTime [b] states) M = .ok (r, M') ∧
    M'.store.bestIndex 1 = some ⟨1, b.id sampleCrypto⟩ ∧
    ∃ s, M'.store.state (b.id sampleCrypto) = some s ∧ M'.tipState.index.id = b.id sampleCrypto ∧
      s.encode ≠ M'.tipState.encode := by
  obtain ⟨⟨M,b,parent,states,M'⟩,hrun,hcheck⟩ := exists_of_holds (x := sampleFraction)
    (p := fun (_, b, _, _, M') => decide (M'.store.bestIndex 1 = some ⟨1,b.id sampleCrypto⟩ ∧
      M'.tipState.index.id = b.id sampleCrypto ∧ (M'.store.state (b.id sampleCrypto)).isSome = true ∧
      (M'.store.state (b.id sampleCrypto)).map State.encode ≠ some M'.tipState.encode)) (by decide +kernel)
  obtain ⟨hbest,htip,hsome,hencode⟩ := of_decide_eq_true hcheck
  obtain ⟨s,hs⟩ := Option.isSome_iff_exists.mp hsome
  simp only [sampleFraction,bind_eq_ok] at hrun
  obtain ⟨M₀,hnew,b₀,-,hrun⟩ := hrun
  cases hparent : M₀.store.state b₀.parentID with
  | none =>
    rw [hparent] at hrun
    cases hrun
  | some parent₀ =>
    rw [hparent] at hrun
    simp only [bind_eq_ok,pure_eq_ok,Prod.exists,Prod.mk.injEq] at hrun
    obtain ⟨states₀,hstates,r,M₁,hexec,rfl,rfl,rfl,rfl,rfl⟩ := hrun
    refine ⟨M₀,b₀,parent₀,states₀,r,M₁,hnew,hparent,hstates,hexec,hbest,s,hs,htip,fun heq => hencode ?_⟩
    rw [hs,Option.map_some,heq]

end Path

section Calls

variable {blocks : List (Time × Block)}

/-- After an error of `AddBlocks` the tip and the index of the best chain are what they were before the call,
if neither this call nor an earlier one was given a block whose body had been pruned. -/
theorem addBlocks_error {msg : String} (hreach : Reachable cfg m (Proper cfg) M)
    (hunpruned : ∀ p ∈ blocks, ¬ M.store.Pruned (p.2.id cfg.crypto)) (hset : Setting cfg.crypto m S M'.ingested)
    (hrun : exec (Manager.addBlocks cfg blocks) M = .ok (.error msg, M')) :
    M'.tipState = M.tipState ∧ ∀ height, M'.store.bestIndex height = M.store.bestIndex height := by
  have hlog := Event.ingested (e := .addBlocks blocks) hrun
  obtain ⟨bl,ch,h⟩ := hreach.at_end (hset.of_prefix hlog)
  obtain ⟨-,-,hback,-⟩ := addBlocks_at h hset hunpruned hrun
  have h' := hback ⟨msg,rfl⟩
  refine ⟨h'.tip.trans h.tip.symm,fun height => ?_⟩
  rw [h'.bestIndex,h.bestIndex]

def sampleAgain : Outcome (Manager × Block × List (Time × Block) × Except String Unit × Manager) := do
  let (_, b, M) ← sampleAdded
  let blocks := [(sampleTime, b), (sampleTime, { b with parentID := FixedBytes.ofNat 32 7 })]
  let (r, M') ← exec (Manager.addBlocks sampleConfig blocks) M
  return (M, b, blocks, r, M')

theorem sampleAgain_run : ∃ S M b blocks msg M', Reachable sampleConfig sampleManifest (Unpruned sampleConfig) M ∧
    M.store.bestIndex 1 = some ⟨1, b.id sampleCrypto⟩ ∧ (sampleTime, b) ∈ blocks ∧
    exec (Manager.addBlocks sampleConfig blocks) M = .ok (.error msg, M') ∧
    Setting sampleCrypto sampleManifest S M'.ingested := by
  obtain ⟨⟨M,b,blocks,r,M'⟩,hrun,hcheck⟩ := exists_of_holds (x := sampleAgain)
    (p := fun (M, b, _, r, M') => decide (M.store.bestIndex 1 = some ⟨1,b.id sampleCrypto⟩ ∧
      M.ingested.length = M'.ingested.length) && !r.isOk) (by decide +kernel)
  rw [Bool.and_eq_true,decide_eq_true_eq] at hcheck
  obtain ⟨⟨hbest,hlength⟩,hr⟩ := hcheck
  simp only [sampleAgain,bind_eq_ok,pure_eq_ok,Prod.exists,Prod.mk.injEq] at hrun
  obtain ⟨M₀,b₀,M₁,hadded,r₁,M₂,hagain,rfl,rfl,rfl,rfl,rfl⟩ := hrun
  obtain ⟨S,M₀',b',M₁',hadded',-,hset⟩ := sampleAdded_setting
  obtain ⟨rfl,rfl,rfl⟩ : M₀ = M₀' ∧ b₀ = b' ∧ M₁ = M₁' := by simpa using hadded.symm.trans hadded'
  obtain ⟨-,-,hreach⟩ := sampleAdded_reachable hadded
  have hlog := (Event.ingested (e := .addBlocks _) hagain).eq_of_length hlength
  cases r₁ with
  | ok u => cases hr
  | error msg => exact ⟨S,M₁,b₀,_,msg,M₂,hreach,hbest,by simp,hagain,hlog ▸ hset⟩

theorem addBlocks_error_sample : ∃ S M blocks msg M', Reachable sampleConfig sampleManifest (Proper sampleConfig) M ∧
    Setting sampleCrypto sampleManifest S M'.ingested ∧
    exec (Manager.addBlocks sampleConfig blocks) M = .ok (.error msg, M') ∧ M'.tipState = M.tipState ∧
    ∀ height, M'.store.bestIndex height = M.store.bestIndex height := by
  obtain ⟨S,M,b,blocks,msg,M',hreach,-,-,hagain,hset⟩ := sampleAgain_run
  exact ⟨S,M,blocks,msg,M',hreach.proper,hset,hagain,
    addBlocks_error hreach.proper (fun p _ => hreach.unpruned _) hset hagain⟩

def sampleRelapse : Outcome (Manager × Manager × List (Time × Block) × Except String Unit × Manager) := do
  let (_, b₁, M₁) ← sampleAdded
  let b₂ ← sampleMined M₁.tipState (sampleTime.add 1000000000) 0 0
  let (_, M₂) ← exec (Manager.addBlocks sampleConfig [(sampleTime, b₂)]) M₁
  let (_, M₃) ← exec (Manager.pruneBlocks sampleConfig 2) M₂
  let (_, M₄) ← exec (Manager.addBlocks sampleConfig [(sampleTime, b₁)]) M₃
  -- the commitment of the first block of the branch is wrong
  let d₂ ← sampleMined M₁.tipState (sampleTime.add 1000000000) 1 0
  let d₂ := { d₂ with v2 := d₂.v2.map fun v2 => { v2 with commitment := default } }
  let s₂ ← applyHeader sampleCrypto M₁.tipState (d₂.header sampleCrypto) default
  let d₃ ← sampleMined s₂ (sampleTime.add 2000000000) 1 2
  let (r, M₅) ← exec (Manager.addBlocks sampleConfig [(sampleTime, d₂), (sampleTime, d₃)]) M₄
  return (M₂, M₄, [(sampleTime, d₂), (sampleTime, d₃)], r, M₅)

/-- The block that came again has the state of its header only, and the tip is rebuilt from it. -/
theorem addBlocks_error_pruned : ∃ M blocks msg M', Reachable sampleConfig sampleManifest (fun _ _ => True) M ∧
    exec (Manager.addBlocks sampleConfig blocks) M = .ok (.error msg, M') ∧
    M'.tipState.encode ≠ M.tipState.encode := by
  obtain ⟨⟨M₂,M₄,blocks,r,M₅⟩,hrun,hcheck⟩ := exists_of_holds (x := sampleRelapse)
    (p := fun (_, M₄, _, r, M₅) => decide (M₅.tipState.encode ≠ M₄.tipState.encode) && !r.isOk) (by decide +kernel)
  rw [Bool.and_eq_true,decide_eq_true_eq] at hcheck
  obtain ⟨hencode,hr⟩ := hcheck
  simp only [sampleRelapse,bind_eq_ok,pure_eq_ok,Prod.exists,Prod.mk.injEq] at hrun
  obtain ⟨M,b₁,M₁,hadded,b₂,-,r₂,M₂',hrun₂,r₃,M₃,hrun₃,r₄,M₄',hrun₄,d₂,-,s₂,-,d₃,-,r₅,M₅',hrun₅,rfl,
    rfl,rfl,rfl,rfl⟩ := hrun
  obtain ⟨-,-,hreach⟩ := sampleAdded_reachable hadded
  have hreach₁ : Reachable sampleConfig sampleManifest (fun _ _ => True) M₁ := hreach.mono fun _ _ _ => trivial
  have hreach₂ := Reachable.step (e := .addBlocks _) hreach₁ trivial hrun₂
  have hreach₃ := Reachable.step (e := .pruneBlocks 2) hreach₂ trivial hrun₃
  have hreach₄ := Reachable.step (e := .addBlocks _) hreach₃ trivial hrun₄
  cases r₅ with
  | ok u => cases hr
  | error msg => exact ⟨M₄',_,msg,M₅',hreach₄,hrun₅,hencode⟩

theorem held_states {st st' : Store} {log : List Ingestion} {c : Crypto} {id : BlockID} (hset : Setting c m S log)
    (hbl : Branch c m log bl ch) (h : st.Held c m bl) (h' : st'.Held c m bl) (hid : id ∈ branchIDs c m bl) :
    st'.state id = st.state id := by
  induction bl using List.reverseRecOn generalizing ch with
  | nil =>
    obtain rfl : id = m.genesis.id c := by simpa [branchIDs] using hid
    have hindex : ch.state.index.id = m.genesis.id c := by rw [hbl.index hset,lastBlock_nil]
    rw [← hindex,(h.tip hbl.run).state,(h'.tip hbl.run).state]
  | append_singleton bl b ih =>
    rw [branchIDs_snoc,List.mem_append,List.mem_singleton] at hid
    obtain ⟨before,hbefore,-,-⟩ := hbl.snoc_inv
    rcases hid with hid | rfl
    · exact ih hbefore (h.of_prefix (List.prefix_append _ _)) (h'.of_prefix (List.prefix_append _ _)) hid
    · have hindex : ch.state.index.id = b.id c := by rw [hbl.index hset,lastBlock_snoc]
      rw [← hindex,(h.tip hbl.run).state,(h'.tip hbl.run).state]

/-- `AddBlocks` leaves the states of the best chain as they are, if neither this call nor an earlier one was
given a block whose body had been pruned. -/
theorem addBlocks_states {r : Except String Unit} (hreach : Reachable cfg m (Proper cfg) M)
    (hunpruned : ∀ p ∈ blocks, ¬ M.store.Pruned (p.2.id cfg.crypto)) (hset : Setting cfg.crypto m S M'.ingested)
    (hrun : exec (Manager.addBlocks cfg blocks) M = .ok (r, M')) (height : UInt64) (index : ChainIndex)
    (hindex : M.store.bestIndex height = some index) : M'.store.state index.id = M.store.state index.id := by
  have hlog := Event.ingested (e := .addBlocks blocks) hrun
  have hset₀ := hset.of_prefix hlog
  obtain ⟨bl,ch,h⟩ := hreach.at_end hset₀
  obtain ⟨-,hheld,-,-⟩ := addBlocks_at h hset hunpruned hrun
  rw [h.bestIndex] at hindex
  obtain ⟨id,hid,rfl⟩ := Option.map_eq_some_iff.mp hindex
  exact held_states hset₀ h.branch h.held hheld (List.mem_of_getElem? hid)

theorem addBlocks_states_sample : ∃ S M b blocks r M', Reachable sampleConfig sampleManifest (Proper sampleConfig) M ∧
    Setting sampleCrypto sampleManifest S M'.ingested ∧ M.store.bestIndex 1 = some ⟨1, b.id sampleCrypto⟩ ∧
    (sampleTime, b) ∈ blocks ∧ exec (Manager.addBlocks sampleConfig blocks) M = .ok (r, M') ∧
    M'.store.state (b.id sampleCrypto) = M.store.state (b.id sampleCrypto) := by
  obtain ⟨S,M,b,blocks,msg,M',hreach,hbest,hmem,hagain,hset⟩ := sampleAgain_run
  exact ⟨S,M,b,blocks,.error msg,M',hreach.proper,hset,hbest,hmem,hagain,
    addBlocks_states hreach.proper (fun p _ => hreach.unpruned _) hset hagain 1 _ hbest⟩

def samplePruned : Outcome (Manager × Block × Manager) := do
  let (_, b, M) ← sampleAdded
  let (_, M₁) ← exec (Manager.pruneBlocks sampleConfig 2) M
  let (_, M₂) ← exec (Manager.addBlocks sampleConfig [(sampleTime, b)]) M₁
  return (M₁, b, M₂)

/-- Of a pruned block that comes again the state is overwritten. -/
theorem addBlocks_states_pruned : ∃ M b r M', Reachable sampleConfig sampleManifest (fun _ _ => True) M ∧
    M.store.bestIndex 1 = some ⟨1, b.id sampleCrypto⟩ ∧
    exec (Manager.addBlocks sampleConfig [(sampleTime, b)]) M = .ok (r, M') ∧
    (M'.store.state (b.id sampleCrypto)).map State.encode ≠ (M.store.state (b.id sampleCrypto)).map State.encode := by
  obtain ⟨⟨M,b,M'⟩,hrun,hcheck⟩ := exists_of_holds (x := samplePruned)
    (p := fun (M, b, M') => decide (M.store.bestIndex 1 = some ⟨1,b.id sampleCrypto⟩ ∧
      (M'.store.state (b.id sampleCrypto)).map State.encode ≠ (M.store.state (b.id sampleCrypto)).map State.encode))
    (by decide +kernel)
  obtain ⟨hbest,hencode⟩ := of_decide_eq_true hcheck
  simp only [samplePruned,bind_eq_ok,pure_eq_ok,Prod.exists,Prod.mk.injEq] at hrun
  obtain ⟨M₀,b₀,M₁,hadded,r₁,M₂,hprune,r₂,M₃,hagain,rfl,rfl,rfl⟩ := hrun
  obtain ⟨-,-,hreach⟩ := sampleAdded_reachable hadded
  have hreach₁ : Reachable sampleConfig sampleManifest (fun _ _ => True) M₁ := hreach.mono fun _ _ _ => trivial
  exact ⟨M₂,b₀,r₂,M₃,Reachable.step (e := .pruneBlocks 2) hreach₁ trivial hprune,hbest,hagain,hencode⟩

end Calls

end QdayNode
