import QdayNode.Consensus.Difficulty
import QdayNode.Manager.Pending

/-!
# The work of the tip

`SufficientlyHeavierThan` compares the total work that the headers of two chains lead to.
`ApplyHeader` computes it from the header fields of a state alone, so that the state of a
block that was only taken in has the work of the state that the block is later applied to.
-/
namespace QdayNode
open ByteString Procedure Outcome

section Order

variable {s t u : State}

theorem sufficientlyHeavierThan_iff : s.sufficientlyHeavierThan t = .ok true ↔
    t.totalWork.toNat + t.difficulty.toNat / 5 < s.totalWork.toNat := by
  obtain ⟨margin,hmargin,hfive⟩ : ∃ margin, t.difficulty.div64 5 = .ok margin ∧ margin.toNat = t.difficulty.toNat / 5 :=
    t.difficulty.div64_returns (by decide)
  rw [State.sufficientlyHeavierThan,hmargin,ok_bind,← hfive,bind_eq_ok]
  simp only [Work.add_eq_ok,pure_eq_ok,Work.lt_iff]
  constructor
  · rintro ⟨threshold,hsum,hlt⟩
    exact lt_of_eq_of_lt hsum hlt
  · intro hlt
    have hbound := s.totalWork.toNat_lt
    obtain ⟨threshold,hsum⟩ := Work.exists_toNat (n := t.totalWork.toNat + margin.toNat) (by omega)
    exact ⟨threshold,hsum.symm,lt_of_eq_of_lt hsum hlt⟩

theorem not_heavier_self (s : State) : s.sufficientlyHeavierThan s ≠ .ok true := by
  rw [Ne,sufficientlyHeavierThan_iff]
  omega

theorem heavier_trans (h : s.sufficientlyHeavierThan t = .ok true) (h' : t.sufficientlyHeavierThan u = .ok true) :
    s.sufficientlyHeavierThan u = .ok true := by
  rw [sufficientlyHeavierThan_iff] at h h' ⊢
  omega

end Order

section Children

variable {c : Crypto} {s next : State} {bh : BlockHeader} {b : Block} {bs : V1BlockSupplement} {t : Time}

def State.headerFields (s : State) : State :=
  { s with
    qdayHeight := 0
    siafundTaxRevenue := Currency.zeroCurrency
    foundationSubsidyAddress := default
    foundationManagementAddress := default
    elements := ⟨fun _ => default, 0⟩
    attestations := 0 }

@[simp] theorem State.headerFields_totalWork (s : State) : s.headerFields.totalWork = s.totalWork := rfl

@[simp] theorem State.headerFields_difficulty (s : State) : s.headerFields.difficulty = s.difficulty := rfl

theorem advanceWork_headerFields (h : advanceWork c s bh t = .ok next) :
    advanceWork c s.headerFields bh t = .ok next.headerFields := by
  unfold advanceWork at h ⊢
  split_ifs at h ⊢
  · simp only [bind_eq_ok,pure_eq_ok] at h
    obtain ⟨oak,hoak,rfl⟩ := h
    rw [show updateOakWork s.headerFields = updateOakWork s from rfl,hoak]
    rfl
  · simp only [bind_eq_ok,pure_eq_ok] at h
    obtain ⟨total,htotal,adjusted,hadjusted,oak,hoak,rfl⟩ := h
    rw [show updateTotalWork s.headerFields = updateTotalWork s from rfl,htotal,
      show adjustDifficulty s.headerFields _ _ = adjustDifficulty s _ _ from rfl,hadjusted,
      show updateOakWork s.headerFields = updateOakWork s from rfl,hoak]
    rfl

theorem applyHeader_headerFields (h : applyHeader c s bh t = .ok next) :
    applyHeader c s.headerFields bh t = .ok next.headerFields := by
  rw [applyHeader,bind_unit_eq_ok,bind_eq_ok] at h ⊢
  obtain ⟨hchild,advanced,hadvanced,h⟩ := h
  refine ⟨hchild,_,advanceWork_headerFields hadvanced,?_⟩
  rw [pure_eq_ok] at h ⊢
  rw [← h]
  split_ifs <;> first | rfl | contradiction

theorem applyBlock_headerFields {au : ApplyUpdate} (h : applyBlock c s b bs t = .ok (next, au)) :
    applyHeader c s.headerFields (b.header c) t = .ok next.headerFields := by
  rw [applyBlock,bind_unit_eq_ok] at h
  simp only [bind_eq_ok,pure_eq_ok,Prod.mk.injEq] at h
  obtain ⟨-,ms,-,out,-,advanced,hadvanced,rfl,-⟩ := h
  rw [show s.headerFields = (s.withBlock ms out.acc).headerFields from rfl,applyHeader_headerFields hadvanced]
  split_ifs <;> rfl

theorem applyHeader_totalWork (h : applyHeader c s bh t = .ok next) (hparent : bh.parentID ≠ default)
    (hheight : ¬ s.childHeight < Network.v2Height) : next.totalWork.toNat = s.totalWork.toNat + s.difficulty.toNat := by
  rw [applyHeader,bind_unit_eq_ok,bind_eq_ok] at h
  obtain ⟨-,advanced,hadvanced,h⟩ := h
  rw [advanceWork,if_neg hparent,updateTotalWork,if_neg hheight] at hadvanced
  simp only [bind_eq_ok,pure_eq_ok,Work.add_eq_ok] at hadvanced h
  obtain ⟨total,⟨work,hwork,depth,-,rfl⟩,adjusted,-,oak,-,rfl⟩ := hadvanced
  rw [← h,hwork]
  split_ifs <;> rfl

theorem childHeight_of_lt (h : s.index.height.toNat < 2^64 - 1) : ¬ s.childHeight < Network.v2Height := by
  rw [State.childHeight,UInt64.lt_iff_toNat_lt,UInt64.toNat_add]
  change ¬ (s.index.height.toNat + 1) % 2^64 < 1
  omega

theorem heavier_of_header (h : applyHeader c s.headerFields bh t = .ok next.headerFields) (hparent : bh.parentID ≠ default)
    (hheight : ¬ s.childHeight < Network.v2Height) (hpos : 1 ≤ s.difficulty.toNat) :
    next.sufficientlyHeavierThan s = .ok true := by
  have hwork := applyHeader_totalWork h hparent hheight
  simp only [State.headerFields_totalWork,State.headerFields_difficulty] at hwork
  rw [sufficientlyHeavierThan_iff,hwork]
  omega

end Children

section Runs

variable {cfg : Config} {m : QdayManifest} {S : Set Bytes} {M M' : Manager} {bl : List Block} {ch : Chain} {L : List Ingestion}

/-- The header fields are those of every valid chain to the block. -/
def Worked (c : Crypto) (m : QdayManifest) (L : List Ingestion) (s : State) : Prop :=
  s.Whole ∧ ∀ bl ch, Branch c m L bl ch → ch.state.index.id = s.index.id → ch.state.headerFields = s.headerFields

theorem carried_worked {c : Crypto} (hset : Setting c m S L) (hwhole : ∀ i ∈ L, i.block.timestamp.WholeSecond) :
    Carried c m L (Worked c m L) (Worked c m L) := by
  refine ⟨?_,fun _ h => h,?_⟩
  · intro bl ch h
    refine ⟨(h.writable hset).whole,fun bl' ch' h' hid => ?_⟩
    obtain ⟨-,rfl⟩ := h'.unique hset h hid
    rfl
  · rintro cs i t next ⟨hcs,hworked⟩ hi hparent hne happly
    have hstored : i.block.stored = i.block := by rw [Block.stored,Time.truncate_eq (hwhole i hi)]
    have hnext : next.Whole := hcs.step (hwhole i hi) (applyHeader_timestamps happly)
    have hfields : ∀ bl ch, Branch c m L bl ch → ch.state.index.id = next.index.id →
        ch.state.headerFields = next.headerFields := by
      intro bl ch h hid
      have hindex : next.index.id = i.block.id c := congrArg ChainIndex.id (applyHeader_frame happly).2.2.2
      obtain ⟨before,chb,b',rfl,hbefore,hext,hheader,hlink⟩ := h.last_of_id hset (b := i.block)
        (hstored ▸ List.mem_map_of_mem hi) (fun hzero => hne (hparent.symm.trans hzero)) (hid.trans hindex)
      obtain ⟨au,hblock⟩ := Chain.extend_applied hext t
      have htrue := applyBlock_headerFields hblock
      rw [hworked before chb hbefore (hlink.trans hparent),hheader,applyHeader_headerFields happly] at htrue
      exact (Except.ok.inj htrue).symm
    rw [hnext.stored]
    exact ⟨⟨hnext,hfields⟩,hnext,hfields⟩

theorem Event.work {e : Event} {r : Except String Unit} (hreach : Reachable cfg m (Proper cfg) M) (he : Proper cfg M e)
    (hset : Setting cfg.crypto m S M'.ingested) (hwhole : ∀ i ∈ M'.ingested, i.block.timestamp.WholeSecond)
    (hrun : exec (e.run cfg) M = .ok (r, M')) :
    M'.tipState = M.tipState ∨ M.tipState.totalWork.toNat < M'.tipState.totalWork.toNat := by
  have hlog := Event.ingested hrun
  obtain ⟨bl,ch,h⟩ := hreach.at_end (hset.of_prefix hlog)
  have hK := carried_worked hset hwhole
  obtain ⟨-,hfollowed⟩ := hK.event hset (List.prefix_refl _) h (hK.reachable hset hlog hreach) he hrun
  rcases hfollowed with h' | ⟨cs,bl',ch',⟨-,hworked⟩,hheavier,h',hindex⟩
  · exact .inl (h'.tip.trans h.tip.symm)
  · right
    have hfields := hworked bl' ch' h'.branch (congrArg ChainIndex.id hindex)
    have hwork : ch'.state.totalWork = cs.totalWork := by
      rw [← State.headerFields_totalWork,hfields,State.headerFields_totalWork]
    rw [sufficientlyHeavierThan_iff] at hheavier
    rw [h.tip,h'.tip,hwork]
    omega

/-- One call to a manager that does not prune. -/
def Call (cfg : Config) (M M' : Manager) : Prop := ∃ e r, Unpruned cfg M e ∧ exec (e.run cfg) M = .ok (r, M')

theorem calls_ingested (hcalls : Relation.ReflTransGen (Call cfg) M M') : M.ingested <+: M'.ingested := by
  induction hcalls with
  | refl => exact List.prefix_refl _
  | tail _ hcall ih =>
    obtain ⟨e,r,-,hrun⟩ := hcall
    exact ih.trans (Event.ingested hrun)

theorem Reachable.calls (hreach : Reachable cfg m (Unpruned cfg) M) (hcalls : Relation.ReflTransGen (Call cfg) M M') :
    Reachable cfg m (Unpruned cfg) M' := by
  induction hcalls with
  | refl => exact hreach
  | tail _ hcall ih =>
    obtain ⟨e,r,he,hrun⟩ := hcall
    exact Reachable.step ih he hrun

theorem calls_work (hreach : Reachable cfg m (Unpruned cfg) M) (hcalls : Relation.ReflTransGen (Call cfg) M M')
    (hset : Setting cfg.crypto m S M'.ingested) (hwhole : ∀ i ∈ M'.ingested, i.block.timestamp.WholeSecond) :
    M'.tipState = M.tipState ∨ M.tipState.totalWork.toNat < M'.tipState.totalWork.toNat := by
  induction hcalls with
  | refl => exact .inl rfl
  | tail hcalls hcall ih =>
    rename_i M₁ M₂
    obtain ⟨e,r,he,hrun⟩ := hcall
    have hlog := Event.ingested hrun
    have hreach₁ := hreach.calls hcalls
    rcases Event.work hreach₁.proper (hreach₁.event_proper he) hset hwhole hrun with hsame | hmore
    · rw [hsame]
      exact ih (hset.of_prefix hlog) fun i hi => hwhole i (hlog.subset hi)
    · right
      rcases ih (hset.of_prefix hlog) fun i hi => hwhole i (hlog.subset hi) with hsame | hbefore
      · rwa [hsame] at hmore
      · exact hbefore.trans hmore

/-- Between states of a node, being sufficiently heavier is a strict order in which every block but the genesis block
follows its parent.  While all timestamps have whole seconds, no call moves the tip without adding to its work, and the
node does not come back to a tip that it has left. -/
theorem tipWork_increases {M₁ M₂ : Manager} (hreach : Reachable cfg m (Unpruned cfg) M)
    (hcalls : Relation.ReflTransGen (Call cfg) M M₁) (hcalls' : Relation.ReflTransGen (Call cfg) M₁ M₂)
    (hset : Setting cfg.crypto m S M₂.ingested) (hwhole : ∀ i ∈ M₂.ingested, i.block.timestamp.WholeSecond) :
    (∀ s : State, s.sufficientlyHeavierThan s ≠ .ok true) ∧
    (∀ s t u : State, s.sufficientlyHeavierThan t = .ok true → t.sufficientlyHeavierThan u = .ok true →
      s.sufficientlyHeavierThan u = .ok true) ∧
    (∀ (s next : State) (bh : BlockHeader) (t : Time), bh.parentID ≠ default → s.index.height.toNat < 2^64 - 1 →
      1 ≤ s.difficulty.toNat → applyHeader cfg.crypto s bh t = .ok next → next.sufficientlyHeavierThan s = .ok true) ∧
    (∀ (s next : State) (b : Block) (bs : V1BlockSupplement) (t : Time) (au : ApplyUpdate), b.parentID ≠ default →
      s.index.height.toNat < 2^64 - 1 → 1 ≤ s.difficulty.toNat → applyBlock cfg.crypto s b bs t = .ok (next, au) →
      next.sufficientlyHeavierThan s = .ok true) ∧
    (M₁.tipState ≠ M.tipState → M.tipState.totalWork.toNat < M₁.tipState.totalWork.toNat) ∧
    (M₂.tipState.index = M.tipState.index → M₁.tipState = M.tipState) := by
  have hlog := calls_ingested hcalls'
  have hset₁ := hset.of_prefix hlog
  have hwork := calls_work hreach hcalls hset₁ fun i hi => hwhole i (hlog.subset hi)
  have hwork' := calls_work (hreach.calls hcalls) hcalls' hset hwhole
  refine ⟨not_heavier_self,fun s t u => heavier_trans,?_,?_,fun hne => hwork.resolve_left hne,fun hback => ?_⟩
  · intro s next bh t hparent hheight hpos h
    exact heavier_of_header (applyHeader_headerFields h) hparent (childHeight_of_lt hheight) hpos
  · intro s next b bs t au hparent hheight hpos h
    exact heavier_of_header (applyBlock_headerFields h) hparent (childHeight_of_lt hheight) hpos
  · -- the tips are the ends of branches to one block, so they have the same state
    obtain ⟨bl,ch,h⟩ := hreach.proper.at_end (hset₁.of_prefix (calls_ingested hcalls))
    obtain ⟨bl₂,ch₂,h₂⟩ := ((hreach.calls hcalls).calls hcalls').proper.at_end hset
    obtain ⟨more,hmore⟩ := (calls_ingested hcalls).trans hlog
    rw [h.tip,h₂.tip] at hback
    obtain ⟨-,rfl⟩ := h₂.branch.unique hset (hmore ▸ h.branch.append) (congrArg ChainIndex.id hback)
    have hsame : M₂.tipState = M.tipState := h₂.tip.trans h.tip.symm
    rcases hwork with htip | hmore
    · exact htip
    · rcases hwork' with htip' | hmore'
      · exact htip'.symm.trans hsame
      · rw [hsame] at hmore'
        omega

end Runs

section Samples

theorem tipWork_increases_sample : ∃ S M M', Reachable sampleConfig sampleManifest (Unpruned sampleConfig) M ∧
    Call sampleConfig M M' ∧ Setting sampleCrypto sampleManifest S M'.ingested ∧ M'.tipState ≠ M.tipState ∧
    M.tipState.totalWork.toNat < M'.tipState.totalWork.toNat := by
  obtain ⟨⟨M,b,M'⟩,hadded,hcheck⟩ := exists_of_holds (x := sampleAdded)
    (p := fun r => decide (r.2.2.tipState.index ≠ r.1.tipState.index ∧
      ∀ i ∈ r.2.2.ingested, i.block.timestamp.nsec = 0)) (by decide +kernel)
  obtain ⟨hindex,hwhole⟩ := of_decide_eq_true hcheck
  obtain ⟨S,M₀,b₀,M₁,hadded',-,hset⟩ := sampleAdded_setting
  obtain ⟨rfl,rfl,rfl⟩ : M = M₀ ∧ b = b₀ ∧ M' = M₁ := by simpa using hadded.symm.trans hadded'
  obtain ⟨hnew,⟨r,hrun⟩,-⟩ := sampleAdded_reachable hadded
  have hreach : Reachable sampleConfig sampleManifest (Unpruned sampleConfig) M := Reachable.start hnew
  have hcall : Call sampleConfig M M' := ⟨.addBlocks _,r,trivial,hrun⟩
  have hne : M'.tipState ≠ M.tipState := fun heq => hindex (congrArg State.index heq)
  obtain ⟨-,-,-,-,hmore,-⟩ := tipWork_increases hreach (.single hcall) .refl hset hwhole
  exact ⟨S,M,M',hreach,hcall,hset,hne,hmore hne⟩

def sampleBlocks (markerNonce : UInt64) : Chain → List (Duration × UInt64) → Outcome (List Block)
  | _, [] => .ok []
  | ch, (d, nonce) :: rest => do
      let b ← sampleMined ch.state (sampleNetwork.genesisTimestamp.add d) markerNonce nonce
      let ch' ← ch.extend sampleCrypto noTimestamp b.stored
      let blocks ← sampleBlocks markerNonce ch' rest
      return b :: blocks

def sampleFractions : Outcome (Manager × List (Time × Block) × Except String Unit × Manager) := do
  let M ← newManager sampleCrypto sampleManifest
  let ch ← sampleManifest.chain sampleCrypto
  let whole ← sampleBlocks 0 ch [(0, 0), (3000000000, 1), (4000000000, 0), (5000000000, 1)]
  let fraction ← sampleBlocks 1 ch [(900000000, 0), (3000000000, 1), (4000000000, 0), (5000000000, 0)]
  let (_, M₁) ← exec (Manager.addBlocks sampleConfig (whole.map fun b => (sampleTime, b))) M
  let (r, M₂) ← exec (Manager.addBlocks sampleConfig (fraction.map fun b => (sampleTime, b))) M₁
  return (M₁, fraction.map fun b => (sampleTime, b), r, M₂)

/-- The genesis block adds no work; and the stored blocks of the second branch have lost the fraction, with which
their headers had more work when the branch was taken in. -/
theorem tipWork_exceptions :
    (∃ root next, sampleNetwork.genesisState = .ok root ∧
      applyHeader sampleCrypto root (sampleManifest.genesis.header sampleCrypto) default = .ok next ∧
      1 ≤ root.difficulty.toNat ∧ next.sufficientlyHeavierThan root ≠ .ok true) ∧
    ∃ M blocks M', Reachable sampleConfig sampleManifest (Unpruned sampleConfig) M ∧
      exec (Manager.addBlocks sampleConfig blocks) M = .ok (.ok (), M') ∧ M'.tipState.index ≠ M.tipState.index ∧
      M'.tipState.totalWork = M.tipState.totalWork := by
  constructor
  · obtain ⟨⟨root,next⟩,hrun,hcheck⟩ := exists_of_holds
      (x := do
        let root ← sampleNetwork.genesisState
        let next ← applyHeader sampleCrypto root (sampleManifest.genesis.header sampleCrypto) default
        return (root, next))
      (p := fun r => decide (1 ≤ r.1.difficulty.toNat ∧ r.2.totalWork = r.1.totalWork)) (by decide +kernel)
    obtain ⟨hpos,hsame⟩ : 1 ≤ root.difficulty.toNat ∧ next.totalWork = root.totalWork := of_decide_eq_true hcheck
    simp only [bind_eq_ok,pure_eq_ok,Prod.mk.injEq] at hrun
    obtain ⟨root',hroot,next',hnext,rfl,rfl⟩ := hrun
    refine ⟨root',next',hroot,hnext,hpos,?_⟩
    rw [Ne,sufficientlyHeavierThan_iff,hsame]
    omega
  · obtain ⟨⟨M₁,blocks,r,M₂⟩,hrun,hcheck⟩ := exists_of_holds (x := sampleFractions)
      (p := fun r => decide (r.2.2.2.tipState.index ≠ r.1.tipState.index ∧
        r.2.2.2.tipState.totalWork = r.1.tipState.totalWork) && r.2.2.1.isOk) (by decide +kernel)
    rw [Bool.and_eq_true,decide_eq_true_eq] at hcheck
    obtain ⟨⟨hindex,hwork⟩,hr⟩ := hcheck
    simp only [sampleFractions,bind_eq_ok,pure_eq_ok,Prod.exists,Prod.mk.injEq] at hrun
    obtain ⟨M,hnew,ch,-,whole,-,fraction,-,r₁,M₁',hrun₁,r₂,M₂',hrun₂,rfl,rfl,rfl,rfl⟩ := hrun
    cases r₂ with
    | error msg => cases hr
    | ok u => exact ⟨M₁',_,M₂',Reachable.step (e := .addBlocks _) (Reachable.start hnew) trivial hrun₁,hrun₂,hindex,hwork⟩

end Samples

end QdayNode
