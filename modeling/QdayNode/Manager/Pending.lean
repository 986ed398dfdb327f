import QdayNode.Manager.Runs

/-!
# The states of blocks that were only taken in

`AddBlocks` stores a block that is not on the best chain with the state that its header
leads to from the state of its parent.  What holds of all states of valid chains and is
carried on by `ApplyHeader` holds of these states in every run.
-/
namespace QdayNode
open ByteString Procedure Outcome

variable {b : Block} {K₀ : State → Prop} {cs : State}

variable {cfg : Config} {m : QdayManifest} {S : Set Bytes} {M M' : Manager} {bl rest : List Block} {ch ch' : Chain}
  {L : List Ingestion} {K : State → Prop}

/-- A valid chain to a block ends with a block of the same header, over a valid chain to its parent. -/
theorem Branch.last_of_id {c : Crypto} (hset : Setting c m S L) (hb : b ∈ taken L) (hne : b.parentID ≠ default)
    (h : Branch c m L bl ch) (hid : ch.state.index.id = b.id c) :
    ∃ before chb b', bl = before ++ [b'] ∧ Branch c m L before chb ∧ chb.extend c noTimestamp b' = .ok ch ∧
      b'.header c = b.header c ∧ chb.state.index.id = b.parentID := by
  cases bl using List.reverseRecOn with
  | nil =>
    have hgenesis : b.id c = m.genesis.id c := by rw [← hid,h.index hset,lastBlock_nil]
    have hheader := header_eq_of_id hset.ideal.inj (hset.headers _ hb) (Branch.genesis_header_mem hset h.genesis_inv)
      (Block.timestamp_of_stored (taken_stored hb)) hset.whole hgenesis
    exact absurd (congrArg BlockHeader.parentID hheader) hne
  | append_singleton before b' =>
    obtain ⟨chb,hbefore,hb',hext⟩ := h.snoc_inv
    have hsame : b'.id c = b.id c := by rw [← hid,h.index hset,lastBlock_snoc]
    have hheader := header_eq_of_id hset.ideal.inj (hset.headers _ hb') (hset.headers _ hb)
      (Block.timestamp_of_stored (taken_stored hb')) (Block.timestamp_of_stored (taken_stored hb)) hsame
    have hlink : b'.parentID = b.parentID := congrArg BlockHeader.parentID hheader
    rw [(block_accepted (Chain.extend_inv hext).1).parentID] at hlink
    exact ⟨before,chb,b',rfl,hbefore,hext,hheader,hlink⟩

/-- What is carried from state to state through the loop of `AddBlocks`: `K` holds of the states of valid
chains, and of a state over which a header is taken in; `K₀` of the state that the header leads to. -/
structure Carried (c : Crypto) (m : QdayManifest) (L : List Ingestion) (K K₀ : State → Prop) : Prop where
  branch : ∀ bl ch, Branch c m L bl ch → K ch.state
  pending : ∀ s, K₀ s → K s
  step : ∀ (cs : State) (i : Ingestion) (t : Time) (next : State), K cs → i ∈ L → i.block.parentID = cs.index.id →
    cs.index.id ≠ default → applyHeader c cs (i.block.header c) t = .ok next → K next ∧ K₀ next.stored

/-- Every state of a block that has not been validated has `K₀`. -/
def Pending (K₀ : State → Prop) (M : Manager) : Prop :=
  ∀ id s, M.store.state id = some s → id ≠ default → ¬ M.store.Validated id → K₀ s

theorem Carried.of_state (hK : Carried cfg.crypto m L K K₀) (h : M.At cfg m bl ch) (hL : M.ingested <+: L)
    (hpending : Pending K₀ M) {id : BlockID} {s : State} (hs : M.store.state id = some s) (hne : id ≠ default) : K s := by
  by_cases hvalidated : M.store.Validated id
  · obtain ⟨bl',ch',hbl',rfl,hheld⟩ := h.sound.validated id hvalidated
    obtain rfl := Option.some.inj ((hheld.tip hbl'.run).state.symm.trans hs)
    obtain ⟨more,rfl⟩ := hL
    exact hK.branch bl' ch' hbl'.append
  · exact hK.pending s (hpending id s hs hne hvalidated)

theorem pending_validated {st : Store} {bs : V1BlockSupplement}
    (hid : cs.index.id = b.id cfg.crypto) (hpending : ∀ id s, st.state id = some s → id ≠ default → ¬ st.Validated id → K₀ s) :
    ∀ id s, ((st.addState cs).addBlock cfg.crypto b (some bs)).state id = some s → id ≠ default →
      ¬ ((st.addState cs).addBlock cfg.crypto b (some bs)).Validated id → K₀ s := by
  intro id s hs hne hnot
  by_cases heq : id = b.id cfg.crypto
  · subst heq
    exact absurd ⟨_,Store.stored_addBlock_self,.inr rfl⟩ hnot
  · rw [Store.state_addBlock,Store.state_addState_of_ne (by rwa [hid])] at hs
    refine hpending id s hs hne fun hvalidated => hnot ?_
    obtain ⟨sb,hsb,hvalid⟩ := hvalidated
    exact ⟨sb,by rw [Store.stored_addBlock_of_ne heq]; exact hsb,hvalid⟩

theorem tipStable_pending : TipStable cfg (Pending K₀) :=
  ⟨fun _ h => h,fun _ _ _ _ h => h,fun _ _ _ _ _ h => h,fun _ _ _ _ _ hadvance h => pending_validated hadvance.id h⟩

variable {now : Time} {blocks : List (Time × Block)} {states : List State} {r : Except String Unit}

theorem Carried.ingest {r : Except String State} (hK : Carried cfg.crypto m L K K₀)
    (h : M.At cfg m bl ch) (hL : M'.ingested <+: L) (hpending : Pending K₀ M) (hcs : K cs)
    (hmember : M.store.Member (m.genesis.id cfg.crypto) cs.index) (hrun : exec (Manager.ingest cfg cs now b) M = .ok (r, M')) :
    Pending K₀ M' ∧ ∀ next, r = .ok next → K next := by
  have hL₀ : M.ingested <+: L := (Triple.keeps (I := fun N => M.ingested <+: N.ingested)
    (stable_ingested.ingest cs now b) (List.prefix_refl _) hrun).trans hL
  rcases Manager.ingest_inv hrun with ⟨⟨msg,rfl⟩,rfl⟩ | ⟨known,⟨b',bs,hblock⟩,hstate,rfl,rfl⟩ |
    ⟨parent,next,hblock,hparent,hing,rfl,rfl⟩
  · exact ⟨hpending,by rintro _ ⟨⟩⟩
  · refine ⟨hpending,?_⟩
    rintro _ ⟨⟩
    refine hK.of_state h hL₀ hpending hstate ?_
    intro hzero
    obtain ⟨sb,hsb,-,-⟩ := validated_iff_of_block hblock
    have hbelow := h.sound.tree.below
    rw [Store.header,← hzero,hsb] at hbelow
    cases hbelow
  · obtain ⟨hlink,hheight⟩ := orphan_accepted hing.orphan
    obtain ⟨t,-,happly⟩ := hing.apply
    have hne : parent.index.id ≠ default := by
      rcases hparent with rfl | hstate
      · exact h.sound.tree.id_ne_default hmember
      · intro hzero
        rw [hlink,hzero] at hstate
        refine hheight ?_
        rw [h.sound.root parent hstate]
        decide
    have hparentK : K parent := by
      rcases hparent with rfl | hstate
      · exact hcs
      · rw [hlink] at hstate
        exact hK.of_state h hL₀ hpending hstate hne
    have hmem : ⟨b,now,parent⟩ ∈ L := hL.subset (by simp [Manager.ingestedOn])
    obtain ⟨hnext,hstored⟩ := hK.step parent ⟨b,now,parent⟩ t next hparentK hmem hlink hne happly
    have hindex : next.index.id = b.id cfg.crypto := congrArg ChainIndex.id (applyHeader_frame happly).2.2.2
    refine ⟨?_,?_⟩
    · intro id s hs hid hnot
      by_cases heq : id = b.id cfg.crypto
      · subst heq
        rw [Manager.ingestedOn,Store.state_addBlock,← hindex,Store.state_addState_self] at hs
        obtain rfl := Option.some.inj hs
        exact hstored
      · rw [Manager.ingestedOn,Store.state_addBlock,Store.state_addState_of_ne (by rwa [hindex])] at hs
        refine hpending id s hs hid fun hvalidated => hnot ?_
        obtain ⟨sb,hsb,hvalid⟩ := hvalidated
        exact ⟨sb,by rw [Manager.ingestedOn,Store.stored_addBlock_of_ne heq]; exact hsb,hvalid⟩
    · rintro _ ⟨⟩
      exact hnext

theorem Carried.ingestLoop {r : Except String State}
    (hK : Carried cfg.crypto m L K K₀) (hset : Setting cfg.crypto m S M'.ingested) (h : M.At cfg m bl ch)
    (hL : M'.ingested <+: L) (hpending : Pending K₀ M) (hcs : K cs)
    (hmember : M.store.Member (m.genesis.id cfg.crypto) cs.index)
    (hunpruned : ∀ p ∈ blocks, ¬ M.store.Pruned (p.2.id cfg.crypto))
    (hrun : exec (blocks.foldlM (fun cs p => Manager.ingest cfg cs p.1 p.2) cs) M = .ok (r, M')) :
    Pending K₀ M' ∧ ∀ next, r = .ok next → K next := by
  induction blocks generalizing M cs with
  | nil =>
    obtain ⟨rfl,rfl⟩ := ok_pair hrun
    refine ⟨hpending,?_⟩
    rintro _ ⟨⟩
    exact hcs
  | cons p blocks ih =>
    obtain ⟨hfirst,hunpruned⟩ := List.forall_mem_cons.mp hunpruned
    rw [List.foldlM_cons] at hrun
    rcases exec_bind_eq_ok.mp hrun with ⟨cs₁,M₁,hstep,hrest⟩ | ⟨msg,hstep,rfl⟩
    · have hlog := ingestLoop_ingested hrest
      obtain ⟨hpending₁,hcs₁⟩ := hK.ingest h (hlog.trans hL) hpending hcs hmember hstep
      obtain ⟨hintake,hmember₁⟩ := ingest_at h (hset.of_prefix hlog) hmember hfirst hstep
      exact ih hintake.tip hpending₁ (hcs₁ cs₁ rfl) (hmember₁ cs₁ rfl)
        (fun p hp hpruned => hunpruned p hp (hintake.pruned _ hpruned)) hrest
    · obtain ⟨hpending',-⟩ := hK.ingest h hL hpending hcs hmember hstep
      exact ⟨hpending',by rintro _ ⟨⟩⟩

theorem pending_validatedLoop {blocks : List Block} {parent : State}
    {r : Except String State} (hpending : Pending K₀ M) (hseq : sequentialStates cfg.crypto parent blocks = .ok states)
    (hrun : exec ((blocks.zip states).foldlM (Manager.ingestValidated cfg now) parent) M = .ok (r, M')) :
    Pending K₀ M' := by
  induction blocks generalizing M parent states with
  | nil =>
    obtain ⟨-,rfl⟩ := ok_pair hrun
    exact hpending
  | cons b blocks ih =>
    obtain ⟨next,au,rest,-,happly,hrest,rfl⟩ := sequentialStates_cons.mp hseq
    obtain ⟨ms,out,ha⟩ := applyBlock_inv happly
    rw [List.zip_cons_cons,List.foldlM_cons] at hrun
    rcases exec_bind_eq_ok.mp hrun with ⟨cs₁,M₁,hstep,hloop⟩ | ⟨msg,hstep,-⟩
    · rcases Manager.ingestValidated_inv hstep with ⟨⟨msg,hbad⟩,-⟩ | ⟨hok,rfl⟩
      · cases hbad
      · obtain rfl := Except.ok.inj hok
        exact ih (M := Manager.stored cfg M now parent (b, cs₁))
          (pending_validated (congrArg ChainIndex.id ha.index) hpending) hrest hloop
    · rcases Manager.ingestValidated_inv hstep with ⟨-,rfl,-⟩ | ⟨hbad,-⟩
      · exact hpending
      · cases hbad

theorem pending_prune (hpending : Pending K₀ M) (n : ℕ) : Pending K₀ { M with store := Manager.pruneStore cfg M.store n } := by
  have hone : ∀ (st : Store) (id : BlockID), (st.pruneBlock cfg.crypto id).state = st.state ∧
      ∀ id', st.Validated id' → (st.pruneBlock cfg.crypto id).Validated id' := by
    intro st id
    unfold Store.pruneBlock
    split
    · exact ⟨rfl,fun _ h => h⟩
    · rename_i bh _
      refine ⟨rfl,fun id' hvalidated => ?_⟩
      by_cases heq : id' = bh.id cfg.crypto
      · subst heq
        exact ⟨_,AList.lookup_insert _,.inl rfl⟩
      · obtain ⟨sb,hsb,hvalid⟩ := hvalidated
        exact ⟨sb,(AList.lookup_insert_ne heq).trans hsb,hvalid⟩
  induction n generalizing M with
  | zero => exact hpending
  | succ n ih =>
    rw [Manager.pruneStore]
    split
    · exact hpending
    · rename_i index _
      split
      · exact hpending
      · obtain ⟨hstate,hvalidated⟩ := hone M.store index.id
        refine ih (M := { M with store := M.store.pruneBlock cfg.crypto index.id }) fun id s hs hne hnot => ?_
        rw [hstate] at hs
        exact hpending id s hs hne fun hv => hnot (hvalidated id hv)

/-- Where a call leaves the tip: at the branch where it was, or at a block whose state in the loop had `K` and was
sufficiently heavier than the tip. -/
def Followed (cfg : Config) (m : QdayManifest) (K : State → Prop) (bl : List Block) (ch : Chain) (M' : Manager) : Prop :=
  M'.At cfg m bl ch ∨ ∃ cs bl' ch', K cs ∧ cs.sufficientlyHeavierThan ch.state = .ok true ∧ M'.At cfg m bl' ch' ∧
    ch'.state.index = cs.index

theorem Followed.of_followBest (hset : Setting cfg.crypto m S M.ingested)
    (h : M.At cfg m bl ch) (hmember : M.store.Member (m.genesis.id cfg.crypto) cs.index) (hcs : K cs)
    (hrun : exec (Manager.followBest cfg cs) M = .ok (r, M')) : Followed cfg m K bl ch M' := by
  obtain ⟨-,heavier,hheavier,⟨-,-,rfl⟩ | ⟨rfl,-,bl',ch',h',hindex,-⟩ | ⟨-,-,h'⟩⟩ :=
    followBest_at hset h hmember hrun
  · exact .inl h
  · exact .inr ⟨cs,bl',ch',hcs,hheavier,h',hindex⟩
  · exact .inl h'

theorem Carried.addBlocks (hK : Carried cfg.crypto m L K K₀)
    (hset : Setting cfg.crypto m S L) (hL : M'.ingested <+: L) (h : M.At cfg m bl ch) (hpending : Pending K₀ M)
    (hunpruned : ∀ p ∈ blocks, ¬ M.store.Pruned (p.2.id cfg.crypto))
    (hrun : exec (Manager.addBlocks cfg blocks) M = .ok (r, M')) : Pending K₀ M' ∧ Followed cfg m K bl ch M' := by
  rcases Manager.addBlocks_inv hrun with ⟨-,-,rfl⟩ | ⟨r₁,M₁,hloop,hend⟩
  · exact ⟨hpending,.inl h⟩
  have hlog₁ : M₁.ingested <+: M'.ingested := by
    rcases hend with ⟨msg,-,-,rfl⟩ | ⟨cs,-,hfollow⟩
    · exact List.prefix_refl _
    · rw [followBest_ingested hfollow]
  have hset₁ := hset.of_prefix (hlog₁.trans hL)
  have hlog := ingestLoop_ingested hloop
  have htip : K M.tipState := by
    rw [h.tip]
    obtain ⟨more,rfl⟩ := (hlog.trans hlog₁).trans hL
    exact hK.branch bl ch h.branch.append
  have hmember : M.store.Member (m.genesis.id cfg.crypto) M.tipState.index := by
    rw [h.tip]
    exact h.branch.member (hset₁.of_prefix hlog) h.held
  obtain ⟨hpending₁,hcarried⟩ := hK.ingestLoop hset₁ h (hlog₁.trans hL) hpending htip hmember hunpruned hloop
  obtain ⟨hintake,hknown⟩ := ingestLoop_at h hset₁ hmember hunpruned hloop
  rcases hend with ⟨msg,-,-,rfl⟩ | ⟨cs,hcs,hfollow⟩
  · exact ⟨hpending₁,.inl hintake.tip⟩
  · exact ⟨Triple.keeps (tipStable_pending.followBest cs) hpending₁ hfollow,
      Followed.of_followBest hset₁ hintake.tip (hknown cs hcs) (hcarried cs hcs) hfollow⟩

theorem Carried.addValidatedV2Blocks {blocks : List Block}
    (hK : Carried cfg.crypto m L K K₀) (hset : Setting cfg.crypto m S L) (hL : M'.ingested <+: L) (h : M.At cfg m bl ch)
    (hpending : Pending K₀ M) (hseq : Sequential cfg.crypto M.store blocks states)
    (hrun : exec (Manager.addValidatedV2Blocks cfg now blocks states) M = .ok (r, M')) :
    Pending K₀ M' ∧ Followed cfg m K bl ch M' := by
  cases blocks with
  | nil =>
    obtain ⟨-,rfl⟩ := ok_pair hrun
    exact ⟨hpending,.inl h⟩
  | cons first blocks =>
    obtain ⟨hvalidated,hwhole,parent,hparent,hstates⟩ := hseq first rfl
    rcases Manager.addValidatedV2Blocks_inv hrun with ⟨-,rfl⟩ | ⟨parent',r₁,M₁,hparent',-,hloop,hend⟩
    · exact ⟨hpending,.inl h⟩
    obtain rfl := Option.some.inj (hparent.symm.trans hparent')
    obtain ⟨base,chb,hbase,hid,hheld⟩ := h.sound.validated _ hvalidated
    obtain rfl : chb.state = parent := by
      have hstate := (hheld.tip hbase.run).state
      rw [hid,hparent] at hstate
      exact (Option.some.inj hstate).symm
    have hlog₁ : M₁.ingested <+: M'.ingested := by
      rcases hend with ⟨msg,-,-,rfl⟩ | ⟨cs,-,hfollow⟩
      · exact List.prefix_refl _
      · rw [followBest_ingested hfollow]
    have hset₁ := hset.of_prefix (hlog₁.trans hL)
    have hpending₁ := pending_validatedLoop hpending hstates hloop
    obtain ⟨h₁,-,chb',rfl,hbl',hheld'⟩ := validatedLoop_at h hset₁ hbase hheld hwhole hstates hloop
    rcases hend with ⟨msg,-,-,rfl⟩ | ⟨cs,hcs,hfollow⟩
    · exact ⟨hpending₁,.inl h₁⟩
    · obtain rfl := Except.ok.inj hcs
      have hlast : K chb'.state := by
        obtain ⟨more,rfl⟩ := hlog₁.trans hL
        exact hK.branch _ _ hbl'.append
      exact ⟨Triple.keeps (tipStable_pending.followBest chb'.state) hpending₁ hfollow,
        Followed.of_followBest hset₁ h₁ (hbl'.member hset₁ hheld') hlast hfollow⟩

theorem Pending.sameChain (h : Pending K₀ M) (hsame : SameChain M M') : Pending K₀ M' := by
  obtain ⟨store,tipState,pool,ingested⟩ := M'
  obtain ⟨rfl,rfl,rfl⟩ := hsame
  exact h

/-- A proper call keeps the states pending, and follows a state with `K` if it moves the tip. -/
theorem Carried.event {e : Event} (hK : Carried cfg.crypto m L K K₀) (hset : Setting cfg.crypto m S L)
    (hL : M'.ingested <+: L) (h : M.At cfg m bl ch) (hpending : Pending K₀ M) (he : Proper cfg M e)
    (hrun : exec (e.run cfg) M = .ok (r, M')) : Pending K₀ M' ∧ Followed cfg m K bl ch M' := by
  cases e with
  | addBlocks blocks => exact hK.addBlocks hset hL h hpending he hrun
  | addValidatedV2Blocks now blocks states => exact hK.addValidatedV2Blocks hset hL h hpending he hrun
  | pruneBlocks height =>
    obtain ⟨-,rfl⟩ := ok_pair hrun
    exact ⟨pending_prune (M := M) hpending height.toNat,
      .inl (pruneStore_at (M := M) (hset.of_prefix hL) h height.toNat)⟩
  | addV2PoolTransactions basis txns =>
    obtain ⟨r',hp⟩ := exec_discard hrun
    have hsame := addV2PoolTransactions_sameChain hp
    exact ⟨hpending.sameChain hsame,.inl (hsame.tip h)⟩
  | v2PoolTransactions =>
    obtain ⟨r',hp⟩ := exec_discard hrun
    have hsame := v2PoolTransactions_sameChain hp
    exact ⟨hpending.sameChain hsame,.inl (hsame.tip h)⟩

theorem Carried.reachable (hK : Carried cfg.crypto m L K K₀) (hset : Setting cfg.crypto m S L) (hL : M.ingested <+: L)
    (hreach : Reachable cfg m (Proper cfg) M) : Pending K₀ M := by
  induction hreach with
  | start hnew =>
    rename_i M
    obtain ⟨ch,h⟩ := newManager_at hnew (hset.of_prefix hL)
    intro id s hs hne hnot
    obtain ⟨rfl,hmember⟩ := h.sound.states id s hs hne
    obtain ⟨bh,hbh⟩ := h.sound.tree.header_of_member hmember
    obtain ⟨sb,hsb,-⟩ := Option.map_eq_some_iff.mp hbh
    obtain ⟨b,hb,-⟩ := h.sound.pending _ sb hsb hnot
    simp only [newManager,bind_eq_ok,Prod.exists,pure_eq_ok] at hnew
    obtain ⟨st,tip,-,rfl⟩ := hnew
    cases hb
  | step hM he hrun ih =>
    have hlog := Event.ingested hrun
    obtain ⟨bl,ch,h⟩ := hM.at_end (hset.of_prefix (hlog.trans hL))
    exact (hK.event hset hL h (ih (hlog.trans hL)) he hrun).1

end QdayNode
