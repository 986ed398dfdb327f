import QdayNode.Manager.Following

/-!
# Runs of the manager

A run is a sequence of calls, with what the node and its peers may pass to each of them.
While no pruned block is given to `AddBlocks` again and `AddValidatedV2Blocks` gets the
outcome of sequential validation, the tip always lies at the end of a branch.
-/
namespace QdayNode
open Ancestry ByteString Procedure Outcome

variable {M M' M₀ : Manager} {b : Block} {I : Manager → Prop} {cs : State} {r : Except String Unit} {now : Time}
  {c : Crypto} {blocks : List Block} {states : List State}

variable {cfg : Config} {m : QdayManifest} {S : Set Bytes} {bl rest : List Block} {ch ch' : Chain}
  {log : List Ingestion}

section Frames

/-- What `applyTip` has of the block that it goes on to. -/
structure Advance (cfg : Config) (M : Manager) (b : Block) (cs : State) (pool : TxPool) : Prop where
  found : ∃ id bs, M.store.block id = some (b, bs)
  id : cs.index.id = b.id cfg.crypto
  pool : ∃ cau, applyPoolUpdate cfg.crypto cau cs M.pool = .ok pool

/-- A property that moving the tip does not touch. -/
structure TipStable (cfg : Config) (I : Manager → Prop) : Prop where
  unset : ∀ M, I M → I { M with pool.ms := none }
  reverted : ∀ M b cs pool, I M → I (Manager.reverted cfg M b cs pool)
  advanced : ∀ M b cs pool, Advance cfg M b cs pool → I M → I (Manager.advanced M M.store cs pool)
  validated : ∀ M b bs cs pool, Advance cfg M b cs pool → I M →
    I (Manager.advanced M ((M.store.addState cs).addBlock cfg.crypto b (some bs)) cs pool)

/-- A property that `AddBlocks` does not touch. -/
structure LoopStable (cfg : Config) (I : Manager → Prop) : Prop extends TipStable cfg I where
  ingestedOn : ∀ M cs now b next, Manager.Ingested cfg M cs now b next → I M → I (Manager.ingestedOn cfg M cs now b next)

/-- A property that neither `AddBlocks` nor `AddValidatedV2Blocks` touches. -/
structure BlockStable (cfg : Config) (I : Manager → Prop) : Prop extends LoopStable cfg I where
  stored : ∀ M now parent p, I M → I (Manager.stored cfg M now parent p)

/-- A property that no call but `PruneBlocks` touches. -/
structure Stable (cfg : Config) (I : Manager → Prop) : Prop extends BlockStable cfg I where
  pool : ∀ M pool, I M → I { M with pool }

theorem TipStable.revertTip (h : TipStable cfg I) : Triple I (Manager.revertTip cfg) (fun _ => I) I := by
  intro M r M' hI hrun
  rcases Manager.revertTip_inv hrun with ⟨-,⟨msg,rfl⟩,rfl⟩ | ⟨b,bs,cs,cru,pool,-,-,-,rfl,rfl⟩
  · exact hI
  · exact h.reverted M b cs pool hI

theorem TipStable.applyTip (h : TipStable cfg I) (index : ChainIndex) :
    Triple I (Manager.applyTip cfg index) (fun _ => I) I := by
  intro M r M' hI hrun
  rcases Manager.applyTip_inv hrun with ⟨-,⟨msg,rfl⟩,rfl⟩ | ⟨b,bs,cs,cau,store,pool,happ,hpool,rfl,rfl⟩
  · exact hI
  · obtain ⟨t,-,happly⟩ := happ.apply
    obtain ⟨ms,out,ha⟩ := applyBlock_inv happly
    have hid := congrArg ChainIndex.id ha.index
    rcases happ.source with ⟨hblock,-,-,rfl⟩ | ⟨bs₀,hblock,-,rfl⟩
    · exact h.validated M b bs cs pool ⟨⟨_,_,hblock⟩,hid,cau,hpool⟩ hI
    · exact h.advanced M b cs pool ⟨⟨_,_,hblock⟩,hid,cau,hpool⟩ hI

theorem TipStable.reorgTo (h : TipStable cfg I) (index : ChainIndex) :
    Triple I (Manager.reorgTo cfg index) (fun _ => I) I := by
  refine Triple.get fun M hM => Triple.bind (Q := fun _ => I) (Triple.call ?_ ?_) fun path => ?_
  · rintro _ a rfl -
    exact hM
  · rintro _ rfl
    exact hM
  refine Triple.bind (Q := fun _ => I) ?_ fun _ => Triple.bind (Q := fun _ => I) ?_ fun _ => ?_
  · exact Triple.foldlM (I := fun _ _ => I) (fun _ _ _ _ _ => h.revertTip) ()
  · exact Triple.foldlM (I := fun _ _ => I) (fun _ x _ _ _ => h.applyTip x) ()
  · exact Triple.modify fun M hM => h.unset M hM

theorem TipStable.followBest (h : TipStable cfg I) (cs : State) : Triple I (Manager.followBest cfg cs) (fun _ => I) I := by
  refine Triple.get fun M hM => Triple.bind (Q := fun _ => I) (Triple.must ?_) fun heavier => ?_
  · rintro _ a rfl -
    exact hM
  split_ifs
  · refine Triple.tryCatch (h.reorgTo cs.index) fun _ => Triple.bind (h.reorgTo _) fun _ => ?_
    exact Triple.throw fun _ hI => hI
  · exact Triple.pure fun _ hI => hI

theorem LoopStable.ingest (h : LoopStable cfg I) (cs : State) (now : Time) (b : Block) :
    Triple I (Manager.ingest cfg cs now b) (fun _ => I) I := by
  intro M r M' hI hrun
  rcases Manager.ingest_inv hrun with ⟨⟨msg,rfl⟩,rfl⟩ | ⟨known,-,-,rfl,rfl⟩ | ⟨parent,next,-,-,hing,rfl,rfl⟩
  · exact hI
  · exact hI
  · exact h.ingestedOn M parent now b next hing hI

theorem LoopStable.ingestLoop (h : LoopStable cfg I) (blocks : List (Time × Block)) (cs : State) :
    Triple I (blocks.foldlM (fun cs p => Manager.ingest cfg cs p.1 p.2) cs) (fun _ => I) I :=
  Triple.foldlM (I := fun _ _ => I) (fun _ p _ cs _ => h.ingest cs p.1 p.2) cs

theorem BlockStable.validatedLoop (h : BlockStable cfg I) (now : Time) (blocks : List (Block × State)) (parent : State) :
    Triple I (blocks.foldlM (Manager.ingestValidated cfg now) parent) (fun _ => I) I := by
  refine Triple.foldlM (I := fun _ _ => I) (fun _ p _ parent _ => ?_) parent
  intro M r M' hI hrun
  rcases Manager.ingestValidated_inv hrun with ⟨⟨msg,rfl⟩,rfl,-⟩ | ⟨rfl,rfl⟩
  · exact hI
  · exact h.stored M now parent p hI

theorem LoopStable.addBlocks (h : LoopStable cfg I) (blocks : List (Time × Block)) :
    Triple I (Manager.addBlocks cfg blocks) (fun _ => I) I := by
  unfold Manager.addBlocks
  split_ifs
  · exact Triple.pure fun _ hI => hI
  · refine Triple.get fun M hM => Triple.bind ((h.ingestLoop blocks _).pre ?_) fun cs => h.followBest cs
    rintro _ rfl
    exact hM

theorem BlockStable.addValidatedV2Blocks (h : BlockStable cfg I) (now : Time) (blocks : List Block) (states : List State) :
    Triple I (Manager.addValidatedV2Blocks cfg now blocks states) (fun _ => I) I := by
  cases blocks with
  | nil => exact Triple.pure fun _ hI => hI
  | cons first blocks =>
    rw [Manager.addValidatedV2Blocks]
    split_ifs
    · exact Triple.throw fun _ hI => hI
    · refine Triple.get fun M hM => ?_
      split
      · exact Triple.throw fun _ hI => hI ▸ hM
      · refine Triple.bind ((h.validatedLoop now _ _).pre ?_) fun cs => h.followBest cs
        rintro _ rfl
        exact hM

theorem tipStable_ingested : TipStable cfg fun M => M.ingested = log :=
  ⟨fun _ h => h,fun _ _ _ _ h => h,fun _ _ _ _ _ h => h,fun _ _ _ _ _ _ h => h⟩

theorem stable_ingested : Stable cfg fun M => log <+: M.ingested :=
  ⟨⟨⟨⟨fun _ h => h,fun _ _ _ _ h => h,fun _ _ _ _ _ h => h,fun _ _ _ _ _ _ h => h⟩,
    fun _ _ _ _ _ _ h => h.trans (List.prefix_append _ _)⟩,fun _ _ _ _ h => h.trans (List.prefix_append _ _)⟩,
    fun _ _ h => h⟩

end Frames

theorem Setting.of_prefix {more : List Ingestion} (h : Setting cfg.crypto m S more) (hpre : log <+: more) :
    Setting cfg.crypto m S log := by
  obtain ⟨rest,rfl⟩ := hpre
  exact h.of_append

theorem followBest_ingested (h : exec (Manager.followBest cfg cs) M = .ok (r, M')) :
    M'.ingested = M.ingested :=
  Triple.keeps (I := fun N => N.ingested = M.ingested) (tipStable_ingested.followBest cs) rfl h

theorem ingestLoop_ingested {blocks : List (Time × Block)} {r : Except String State}
    (h : exec (blocks.foldlM (fun cs p => Manager.ingest cfg cs p.1 p.2) cs) M = .ok (r, M')) :
    M.ingested <+: M'.ingested :=
  Triple.keeps (I := fun N => M.ingested <+: N.ingested) (stable_ingested.ingestLoop blocks cs) (List.prefix_refl _) h

theorem validatedLoop_ingested {blocks : List (Block × State)} {parent : State} {r : Except String State}
    (h : exec (blocks.foldlM (Manager.ingestValidated cfg now) parent) M = .ok (r, M')) :
    M.ingested <+: M'.ingested :=
  Triple.keeps (I := fun N => M.ingested <+: N.ingested) (stable_ingested.validatedLoop now blocks parent)
    (List.prefix_refl _) h

section Blocks

/-- The pool is in step with the tip: both are as they were, or the pool has dropped its mid state. -/
def InStep (M M' : Manager) : Prop := (M'.tipState = M.tipState ∧ M'.pool = M.pool) ∨ M'.pool.ms = none

theorem InStep.refl (M : Manager) : InStep M M := .inl ⟨rfl,rfl⟩

variable {M₁ M₂ : Manager} {r : Except String State} {blocks : List (Time × Block)}

theorem InStep.trans (h : InStep M M₁) (h' : InStep M₁ M₂) : InStep M M₂ := by
  rcases h' with ⟨htip,hpool⟩ | hnone
  · rcases h with ⟨htip₁,hpool₁⟩ | hnone
    · exact .inl ⟨htip.trans htip₁,hpool.trans hpool₁⟩
    · exact .inr (by rw [hpool,hnone])
  · exact .inr hnone

theorem reorgTo_unset {index : ChainIndex} (h : exec (Manager.reorgTo cfg index) M = .ok (.ok (), M')) : M'.pool.ms = none := by
  have htriple : Triple (fun _ => True) (Manager.reorgTo cfg index) (fun _ N => N.pool.ms = none) fun _ => True := by
    refine Triple.get fun M _ => Triple.bind (Q := fun _ _ => True) (Triple.call ?_ ?_) fun path => ?_
    · exact fun _ _ _ _ => trivial
    · exact fun _ _ => trivial
    refine Triple.bind (Q := fun _ _ => True) ?_ fun _ => Triple.bind (Q := fun _ _ => True) ?_ fun _ => ?_
    · exact Triple.foldlM (I := fun _ _ _ => True) (fun _ _ _ _ _ _ r _ _ _ => by cases r <;> trivial) ()
    · exact Triple.foldlM (I := fun _ _ _ => True) (fun _ _ _ _ _ _ r _ _ _ => by cases r <;> trivial) ()
    · exact Triple.modify fun _ _ => rfl
  exact htriple M _ M' trivial h

/-- Following a block of the store: the tip stays, or the block becomes the tip, or the tip is back where it was. -/
theorem followBest_at {r : Except String Unit} (hset : Setting cfg.crypto m S M.ingested) (h : M.At cfg m bl ch)
    (hcs : M.store.Member (m.genesis.id cfg.crypto) cs.index) (hrun : exec (Manager.followBest cfg cs) M = .ok (r, M')) :
    InStep M M' ∧ ∃ heavier, cs.sufficientlyHeavierThan ch.state = .ok heavier ∧
      ((heavier = false ∧ r = .ok () ∧ M' = M) ∨
        (heavier = true ∧ r = .ok () ∧ ∃ bl' ch', M'.At cfg m bl' ch' ∧ ch'.state.index = cs.index ∧
          M.store.Grows cfg.crypto m M.ingested M'.store) ∨
        (heavier = true ∧ (∃ msg, r = .error msg) ∧ M'.At cfg m bl ch)) := by
  obtain ⟨heavier,hheavier,hcases⟩ := Manager.followBest_inv hrun
  rw [h.tip] at hheavier
  rcases hcases with ⟨hfalse,rfl,rfl⟩ | ⟨htrue,rfl,hok⟩ | ⟨htrue,hr,msg,M₁,r₁,hfail,hback⟩
  · exact ⟨InStep.refl _,heavier,hheavier,.inl ⟨hfalse,rfl,rfl⟩⟩
  · obtain ⟨keep,rest,ext,ch',rfl,hhalf,⟨-,hindex⟩ | ⟨msg,hbad⟩⟩ := reorgTo_at hset h hcs hok
    · exact ⟨.inr (reorgTo_unset hok),heavier,hheavier,
        .inr (.inl ⟨htrue,rfl,keep ++ ext,ch',hhalf.tip,hindex,hhalf.grows⟩)⟩
    · cases hbad
  · obtain ⟨keep,rest,ext,ch₁,rfl,hhalf,-⟩ := reorgTo_at hset h hcs hfail
    have hset₁ : Setting cfg.crypto m S M₁.ingested := hhalf.ingested ▸ hset
    obtain ⟨rfl,hend,-⟩ := reorgTo_back hset₁ hhalf.tip (hhalf.ingested ▸ h.branch)
      (h.held.keep h.branch hhalf.grows.keeps) hhalf.on hhalf.off (fun b hb => h.ordered b (List.mem_append_right _ hb))
      (h.tip ▸ hback)
    exact ⟨.inr (reorgTo_unset hback),heavier,hheavier,.inr (.inr ⟨htrue,hr,hend⟩)⟩

def Store.Pruned (st : Store) (id : BlockID) : Prop := ∃ sb, st.stored id = some sb ∧ sb.block = none

/-- What taking a block in leaves as it was. -/
structure Intake (cfg : Config) (m : QdayManifest) (bl : List Block) (ch : Chain) (M M' : Manager) : Prop where
  tip : M'.At cfg m bl ch
  members : ∀ i, M.store.Member (m.genesis.id cfg.crypto) i → M'.store.Member (m.genesis.id cfg.crypto) i
  pruned : ∀ id, M'.store.Pruned id → M.store.Pruned id
  inStep : InStep M M'

theorem Intake.refl (h : M.At cfg m bl ch) : Intake cfg m bl ch M M := ⟨h,fun _ h => h,fun _ h => h,InStep.refl M⟩

theorem orphan_accepted (h : validateOrphan c cs b = .ok ()) :
    b.parentID = cs.index.id ∧ ¬ cs.childHeight < Network.v2Height := by
  simp only [validateOrphan,bind_unit_eq_ok] at h
  exact header_accepted h.2.2.1

theorem ingestedOn_at {next : State} (h : M.At cfg m bl ch)
    (hset : Setting cfg.crypto m S (M.ingested ++ [Ingestion.mk b now cs])) (hing : Manager.Ingested cfg M cs now b next)
    (hcs : M.store.Member (m.genesis.id cfg.crypto) cs.index) (hnew : ¬ M.store.Validated (b.id cfg.crypto)) :
    Intake cfg m bl ch M (Manager.ingestedOn cfg M cs now b next) ∧
      (Manager.ingestedOn cfg M cs now b next).store.Member (m.genesis.id cfg.crypto) next.index := by
  obtain ⟨hparent,-⟩ := orphan_accepted hing.orphan
  obtain ⟨t,-,happly⟩ := hing.apply
  have hindex : next.index = ⟨cs.childHeight,b.id cfg.crypto⟩ := by
    rw [(applyHeader_frame happly).2.2.2]
    change (⟨if b.parentID = default then 0 else cs.childHeight,b.id cfg.crypto⟩ : ChainIndex) = _
    rw [hparent,if_neg (h.sound.tree.id_ne_default hcs)]
  obtain ⟨hsound,hmember,hkeeps⟩ := h.sound.ingest hset hcs hparent hindex hnew
  have hbranch : Branch cfg.crypto m (M.ingested ++ [Ingestion.mk b now cs]) bl ch := h.branch.append
  have hshort := h.sound.short _ hcs
  refine ⟨⟨⟨hbranch,hsound,h.held.keep hbranch hkeeps,h.tip,h.height,h.best,h.ordered⟩,?_,?_,.inl ⟨rfl,rfl⟩⟩,hmember⟩
  · obtain ⟨-,-,hmono,-⟩ := h.sound.tree_put hset (b := b) next none (by simp [taken]) hcs hparent (by simpa using hshort)
    exact hmono
  · rintro id ⟨sb,hsb,hnone⟩
    rw [Manager.ingestedOn,Store.stored_addBlock,Store.stored_addState] at hsb
    split_ifs at hsb
    · obtain rfl := Option.some.inj hsb
      cases hnone
    · exact ⟨sb,hsb,hnone⟩

theorem ingest_at (h : M.At cfg m bl ch) (hset : Setting cfg.crypto m S M'.ingested)
    (hcs : M.store.Member (m.genesis.id cfg.crypto) cs.index) (hunpruned : ¬ M.store.Pruned (b.id cfg.crypto))
    (hrun : exec (Manager.ingest cfg cs now b) M = .ok (r, M')) :
    Intake cfg m bl ch M M' ∧ ∀ next, r = .ok next → M'.store.Member (m.genesis.id cfg.crypto) next.index := by
  rcases Manager.ingest_inv hrun with ⟨⟨msg,rfl⟩,rfl⟩ | ⟨known,hblock,hstate,rfl,rfl⟩ |
    ⟨parent,next,hblock,hparent,hing,rfl,rfl⟩
  · exact ⟨Intake.refl h,by rintro _ ⟨⟩⟩
  · refine ⟨Intake.refl h,?_⟩
    rintro _ ⟨⟩
    obtain ⟨b',bs,hblock⟩ := hblock
    obtain ⟨sb,hsb,-,-⟩ := validated_iff_of_block hblock
    refine (h.sound.states _ known hstate ?_).2
    intro hzero
    have hbelow := h.sound.tree.below
    rw [Store.header,← hzero,hsb] at hbelow
    cases hbelow
  · have hnew : ¬ M.store.Validated (b.id cfg.crypto) := by
      rintro ⟨sb,hsb,hnone | hsome⟩
      · exact hunpruned ⟨sb,hsb,hnone⟩
      · obtain ⟨bs,hbs⟩ := Option.isSome_iff_exists.mp hsome
        cases hbody : sb.block with
        | none => exact hunpruned ⟨sb,hsb,hbody⟩
        | some b' => exact hblock b' bs (by rw [Store.block,hsb,Option.bind_some,hbody,hbs]; rfl)
    have hmember : M.store.Member (m.genesis.id cfg.crypto) parent.index := by
      rcases hparent with rfl | hstate
      · exact hcs
      · refine (h.sound.states _ parent hstate ?_).2
        -- nothing is accepted on the state before the genesis block
        intro hzero
        rw [hzero] at hstate
        refine (orphan_accepted hing.orphan).2 ?_
        rw [h.sound.root parent hstate]
        decide
    obtain ⟨hintake,hnext⟩ := ingestedOn_at h hset hing hmember hnew
    refine ⟨hintake,?_⟩
    rintro _ ⟨⟩
    exact hnext

theorem Intake.trans (h : Intake cfg m bl ch M M₁) (h' : Intake cfg m bl ch M₁ M₂) :
    Intake cfg m bl ch M M₂ :=
  ⟨h'.tip,fun i hi => h'.members i (h.members i hi),fun id hid => h.pruned id (h'.pruned id hid),h.inStep.trans h'.inStep⟩

theorem ingestLoop_at (h : M.At cfg m bl ch)
    (hset : Setting cfg.crypto m S M'.ingested) (hcs : M.store.Member (m.genesis.id cfg.crypto) cs.index)
    (hunpruned : ∀ p ∈ blocks, ¬ M.store.Pruned (p.2.id cfg.crypto))
    (hrun : exec (blocks.foldlM (fun cs p => Manager.ingest cfg cs p.1 p.2) cs) M = .ok (r, M')) :
    Intake cfg m bl ch M M' ∧ ∀ next, r = .ok next → M'.store.Member (m.genesis.id cfg.crypto) next.index := by
  induction blocks generalizing M cs with
  | nil =>
    obtain ⟨rfl,rfl⟩ := ok_pair hrun
    refine ⟨Intake.refl h,?_⟩
    rintro _ ⟨⟩
    exact hcs
  | cons p blocks ih =>
    obtain ⟨hfirst,hunpruned⟩ := List.forall_mem_cons.mp hunpruned
    rw [List.foldlM_cons] at hrun
    rcases exec_bind_eq_ok.mp hrun with ⟨cs₁,M₁,hstep,hrest⟩ | ⟨msg,hstep,rfl⟩
    · obtain ⟨hintake,hmember⟩ := ingest_at h (hset.of_prefix (ingestLoop_ingested hrest)) hcs hfirst hstep
      obtain ⟨hintake',hmember'⟩ := ih hintake.tip (hmember cs₁ rfl)
        (fun p hp hpruned => hunpruned p hp (hintake.pruned _ hpruned)) hrest
      exact ⟨hintake.trans hintake',hmember'⟩
    · obtain ⟨hintake,-⟩ := ingest_at h hset hcs hfirst hstep
      exact ⟨hintake,by rintro _ ⟨⟩⟩

/-- `AddBlocks` leaves the tip at the end of a branch and keeps what it had; after an error the branch is the same. -/
theorem addBlocks_at {r : Except String Unit} (h : M.At cfg m bl ch)
    (hset : Setting cfg.crypto m S M'.ingested) (hunpruned : ∀ p ∈ blocks, ¬ M.store.Pruned (p.2.id cfg.crypto))
    (hrun : exec (Manager.addBlocks cfg blocks) M = .ok (r, M')) :
    (∃ bl' ch', M'.At cfg m bl' ch') ∧ M'.store.Held cfg.crypto m bl ∧ ((∃ msg, r = .error msg) → M'.At cfg m bl ch) ∧
      InStep M M' := by
  rcases Manager.addBlocks_inv hrun with ⟨-,rfl,rfl⟩ | ⟨r₁,M₁,hloop,hend⟩
  · exact ⟨⟨bl,ch,h⟩,h.held,fun _ => h,InStep.refl _⟩
  have hlog : M₁.ingested <+: M'.ingested := by
    rcases hend with ⟨msg,rfl,rfl,rfl⟩ | ⟨cs,rfl,hfollow⟩
    · exact List.prefix_refl _
    · rw [followBest_ingested hfollow]
  have hset₁ := hset.of_prefix hlog
  have htip : M.store.Member (m.genesis.id cfg.crypto) M.tipState.index := by
    rw [h.tip]
    exact h.branch.member (hset₁.of_prefix (ingestLoop_ingested hloop)) h.held
  obtain ⟨hintake,hmember⟩ := ingestLoop_at h hset₁ htip hunpruned hloop
  rcases hend with ⟨msg,rfl,rfl,rfl⟩ | ⟨cs,rfl,hfollow⟩
  · exact ⟨⟨bl,ch,hintake.tip⟩,hintake.tip.held,fun _ => hintake.tip,hintake.inStep⟩
  · obtain ⟨hstep,heavier,-,⟨-,rfl,rfl⟩ | ⟨-,rfl,bl',ch',htip',-,hgrows⟩ | ⟨-,-,hback⟩⟩ :=
      followBest_at hset₁ hintake.tip (hmember cs rfl) hfollow
    · exact ⟨⟨bl,ch,hintake.tip⟩,hintake.tip.held,fun _ => hintake.tip,hintake.inStep⟩
    · refine ⟨⟨bl',ch',htip'⟩,hintake.tip.held.keep hintake.tip.branch hgrows.keeps,?_,hintake.inStep.trans hstep⟩
      rintro ⟨msg,⟨⟩⟩
    · exact ⟨⟨bl,ch,hback⟩,hback.held,fun _ => hback,hintake.inStep.trans hstep⟩

end Blocks

section Validated

/-- The states that sequential validation from the state `s` leads to. -/
def sequentialStates (c : Crypto) : State → List Block → Outcome (List State)
  | _, [] => .ok []
  | s, b :: blocks => do
      validateBlock c s b {}
      let (next, _) ← applyBlock c s b {} default
      let states ← sequentialStates c next blocks
      return next :: states

theorem sequentialStates_cons {s : State} :
    sequentialStates c s (b :: blocks) = .ok states ↔ ∃ next au rest, validateBlock c s b {} = .ok () ∧
      applyBlock c s b {} default = .ok (next, au) ∧ sequentialStates c next blocks = .ok rest ∧ states = next :: rest := by
  rw [sequentialStates,bind_unit_eq_ok]
  simp only [bind_eq_ok,pure_eq_ok,Prod.exists]
  constructor
  · rintro ⟨hvalid,next,au,happly,rest,hrest,rfl⟩
    exact ⟨next,au,rest,hvalid,happly,hrest,rfl⟩
  · rintro ⟨next,au,rest,hvalid,happly,hrest,rfl⟩
    exact ⟨hvalid,next,au,happly,rest,hrest,rfl⟩

theorem validatedLoop_at {base : List Block} {chb : Chain} {r : Except String State}
    (h : M.At cfg m bl ch) (hset : Setting cfg.crypto m S M'.ingested) (hbase : Branch cfg.crypto m M.ingested base chb)
    (hheld : M.store.Held cfg.crypto m base) (hwhole : ∀ b ∈ blocks, b.timestamp.WholeSecond)
    (hseq : sequentialStates cfg.crypto chb.state blocks = .ok states)
    (hrun : exec ((blocks.zip states).foldlM (Manager.ingestValidated cfg now) chb.state) M = .ok (r, M')) :
    M'.At cfg m bl ch ∧ InStep M M' ∧ ∃ chb', r = .ok chb'.state ∧ Branch cfg.crypto m M'.ingested (base ++ blocks) chb' ∧
      M'.store.Held cfg.crypto m (base ++ blocks) := by
  induction blocks generalizing M base chb states with
  | nil =>
    obtain ⟨rfl,rfl⟩ := ok_pair hrun
    exact ⟨h,InStep.refl _,chb,rfl,by rwa [List.append_nil],by rwa [List.append_nil]⟩
  | cons b blocks ih =>
    obtain ⟨next,au,rest,hvalid,happly,hrest,rfl⟩ := sequentialStates_cons.mp hseq
    obtain ⟨hbwhole,hwhole⟩ := List.forall_mem_cons.mp hwhole
    rw [List.zip_cons_cons,List.foldlM_cons] at hrun
    obtain ⟨M₁,hM₁,hloop⟩ : ∃ M₁, M₁ = Manager.stored cfg M now chb.state (b, next) ∧
        exec ((blocks.zip rest).foldlM (Manager.ingestValidated cfg now) next) M₁ = .ok (r, M') := by
      have hv2 := (block_accepted hvalid).hasV2
      rcases exec_bind_eq_ok.mp hrun with ⟨cs₁,M₁,hstep,hloop⟩ | ⟨msg,hstep,-⟩
      · rcases Manager.ingestValidated_inv hstep with ⟨⟨msg,hbad⟩,-⟩ | ⟨hok,rfl⟩
        · cases hbad
        · obtain rfl := Except.ok.inj hok
          exact ⟨_,rfl,hloop⟩
      · rcases Manager.ingestValidated_inv hstep with ⟨-,-,hnone⟩ | ⟨hbad,-⟩
        · rw [hnone] at hv2
          cases hv2
        · cases hbad
    subst hM₁
    have hset₁ : Setting cfg.crypto m S (M.ingested ++ [⟨b,now,chb.state⟩]) := hset.of_prefix (validatedLoop_ingested hloop)
    have hmem : b ∈ taken (M.ingested ++ [⟨b,now,chb.state⟩]) := by
      have hstored : b.stored = b := by rw [Block.stored,Time.truncate_eq hbwhole]
      simp [taken,hstored]
    obtain ⟨chb',hext,rfl⟩ := Chain.extend_of_applied hvalid happly
    have hshort := h.sound.short _ (hbase.member hset₁.of_append hheld)
    rw [hbase.height hset₁.of_append] at hshort
    obtain ⟨hsound,hkeeps,hheld'⟩ := h.sound.validate hset₁ hbase hheld hmem hext (by simpa using hshort)
    have hbranch : Branch cfg.crypto m (M.ingested ++ [⟨b,now,chb.state⟩]) bl ch := h.branch.append
    have h₁ : (Manager.stored cfg M now chb.state (b, chb'.state)).At cfg m bl ch :=
      ⟨hbranch,hsound,h.held.keep hbranch hkeeps,h.tip,h.height,h.best,h.ordered⟩
    obtain ⟨h',hstep,chb'',hr,hbl',hheld''⟩ := ih h₁ (hbase.append.snoc hmem hext) hheld' hwhole hrest hloop
    rw [List.append_assoc,List.singleton_append] at hbl' hheld''
    exact ⟨h',hstep,chb'',hr,hbl',hheld''⟩

/-- Blocks with the states that sequential validation leads to, from a validated block of the store on. -/
def Sequential (c : Crypto) (st : Store) (blocks : List Block) (states : List State) : Prop :=
  ∀ first ∈ blocks.head?, st.Validated first.parentID ∧ (∀ b ∈ blocks, b.timestamp.WholeSecond) ∧
    ∃ parent, st.state first.parentID = some parent ∧ sequentialStates c parent blocks = .ok states

/-- `AddValidatedV2Blocks` leaves the tip at the end of a branch. -/
theorem addValidatedV2Blocks_at
    (h : M.At cfg m bl ch) (hset : Setting cfg.crypto m S M'.ingested) (hseq : Sequential cfg.crypto M.store blocks states)
    (hrun : exec (Manager.addValidatedV2Blocks cfg now blocks states) M = .ok (r, M')) :
    (∃ bl' ch', M'.At cfg m bl' ch') ∧ InStep M M' := by
  cases blocks with
  | nil =>
    obtain ⟨rfl,rfl⟩ := ok_pair hrun
    exact ⟨⟨bl,ch,h⟩,InStep.refl _⟩
  | cons first blocks =>
    obtain ⟨hvalidated,hwhole,parent,hparent,hstates⟩ := hseq first rfl
    rcases Manager.addValidatedV2Blocks_inv hrun with ⟨-,rfl⟩ | ⟨parent',r₁,M₁,hparent',-,hloop,hend⟩
    · exact ⟨⟨bl,ch,h⟩,InStep.refl _⟩
    obtain rfl := Option.some.inj (hparent.symm.trans hparent')
    obtain ⟨base,chb,hbase,hid,hheld⟩ := h.sound.validated _ hvalidated
    have htip := hheld.tip hbase.run
    obtain rfl : chb.state = parent := by
      have hstate := htip.state
      rw [hid,hparent] at hstate
      exact (Option.some.inj hstate).symm
    have hlog : M₁.ingested <+: M'.ingested := by
      rcases hend with ⟨msg,rfl,rfl,rfl⟩ | ⟨cs,rfl,hfollow⟩
      · exact List.prefix_refl _
      · rw [followBest_ingested hfollow]
    have hset₁ := hset.of_prefix hlog
    obtain ⟨h₁,hstep₁,chb',rfl,hbl',hheld'⟩ := validatedLoop_at h hset₁ hbase hheld hwhole hstates hloop
    rcases hend with ⟨msg,hbad,-⟩ | ⟨cs,hcs,hfollow⟩
    · cases hbad
    obtain rfl := Except.ok.inj hcs
    obtain ⟨hstep,heavier,-,hcases⟩ := followBest_at hset₁ h₁ (hbl'.member hset₁ hheld') hfollow
    refine ⟨?_,hstep₁.trans hstep⟩
    rcases hcases with ⟨-,-,rfl⟩ | ⟨-,-,bl',ch',h',-,-⟩ | ⟨-,-,h'⟩
    · exact ⟨bl,ch,h₁⟩
    · exact ⟨bl',ch',h'⟩
    · exact ⟨bl,ch,h'⟩

end Validated

section Prune

theorem validated_of_mem {st : Store} {id : BlockID} (hset : Setting c m S log) (h : Branch c m log bl ch)
    (hheld : st.Held c m bl) (hid : id ∈ branchIDs c m bl) : st.Validated id := by
  induction bl using List.reverseRecOn generalizing ch with
  | nil =>
    obtain rfl : id = m.genesis.id c := by simpa [branchIDs] using hid
    have htip := (hheld.tip h.run).validated
    rwa [h.index hset] at htip
  | append_singleton bl b ih =>
    rw [branchIDs_snoc,List.mem_append,List.mem_singleton] at hid
    obtain ⟨before,hbefore,-,-⟩ := h.snoc_inv
    rcases hid with hid | rfl
    · exact ih hbefore (hheld.of_prefix (List.prefix_append _ _)) hid
    · have htip := (hheld.tip h.run).validated
      rwa [h.index hset,lastBlock_snoc] at htip

/-- `PruneBlocks` leaves the tip where it is. -/
theorem pruneStore_at (hset : Setting cfg.crypto m S M.ingested) (h : M.At cfg m bl ch) (n : ℕ) :
    { M with store := Manager.pruneStore cfg M.store n }.At cfg m bl ch := by
  induction n generalizing M with
  | zero => exact h
  | succ n ih =>
    rw [Manager.pruneStore]
    cases hindex : M.store.bestIndex (UInt64.ofNat n) with
    | none => exact h
    | some index =>
      dsimp only
      cases hblock : M.store.block index.id with
      | none => exact h
      | some found =>
        have hmem : index.id ∈ branchIDs cfg.crypto m bl := by
          obtain ⟨id,hid,rfl⟩ := Option.map_eq_some_iff.mp hindex
          rw [h.best] at hid
          exact List.mem_of_getElem? hid
        obtain ⟨hsound,hkeeps⟩ := h.sound.prune hset (validated_of_mem hset h.branch h.held hmem)
        have hbest : (M.store.pruneBlock cfg.crypto index.id).best = M.store.best := by
          unfold Store.pruneBlock
          split <;> rfl
        have hheight : (M.store.pruneBlock cfg.crypto index.id).height = M.store.height := by
          unfold Store.pruneBlock
          split <;> rfl
        have h₁ : { M with store := M.store.pruneBlock cfg.crypto index.id }.At cfg m bl ch :=
          ⟨h.branch,hsound,h.held.keep h.branch hkeeps,h.tip,hheight.trans h.height,
            fun k => hbest ▸ h.best k,h.ordered⟩
        exact ih (M := { M with store := M.store.pruneBlock cfg.crypto index.id }) hset h₁

end Prune

section PoolCalls

/-- Two managers that differ in their pools only. -/
structure SameChain (M₀ M : Manager) : Prop where
  store : M.store = M₀.store
  tipState : M.tipState = M₀.tipState
  ingested : M.ingested = M₀.ingested

theorem SameChain.tip (h : SameChain M₀ M) (hat : M₀.At cfg m bl ch) : M.At cfg m bl ch := by
  obtain ⟨store,tipState,pool,ingested⟩ := M
  obtain ⟨hstore,htip,hlog⟩ := h
  subst hstore htip hlog
  exact ⟨hat.branch,hat.sound,hat.held,hat.tip,hat.height,hat.best,hat.ordered⟩

theorem SameChain.refl (M : Manager) : SameChain M M := ⟨rfl,rfl,rfl⟩

theorem SameChain.with_pool (h : SameChain M₀ M) (pool : TxPool) : SameChain M₀ { M with pool } :=
  ⟨h.store,h.tipState,h.ingested⟩

theorem addTxn_sameChain (start : TxPool) (txn : V2Transaction) :
    Triple (SameChain M₀) (Manager.addTxn cfg start txn) (fun _ => SameChain M₀) (SameChain M₀) := by
  intro M r M' hsame hrun
  rcases Manager.addTxn_inv hrun with ⟨rfl,rfl⟩ | ⟨⟨msg,rfl⟩,rfl⟩ | ⟨ms,ms',-,-,-,-,rfl,rfl⟩
  · exact hsame
  · exact hsame.with_pool _
  · exact hsame.with_pool _

theorem addV2PoolTransactions_sameChain {basis : ChainIndex} {txns : List V2Transaction} {r : Except String Bool}
    (h : exec (Manager.addV2PoolTransactions cfg basis txns) M = .ok (r, M')) : SameChain M M' := by
  obtain ⟨pool,-,rfl | ⟨updated,r₁,-,hloop,-⟩⟩ := Manager.addV2PoolTransactions_inv h
  · exact (SameChain.refl M).with_pool pool
  · exact Triple.keeps (Triple.foldlM (I := fun _ _ => SameChain M) (fun _ txn _ _ _ => addTxn_sameChain pool txn) ())
      ((SameChain.refl M).with_pool pool) hloop

theorem v2PoolTransactions_sameChain {r : Except String (List V2Transaction)}
    (h : exec (Manager.v2PoolTransactions cfg) M = .ok (r, M')) : SameChain M M' := by
  obtain ⟨pool,-,-,rfl⟩ := Manager.v2PoolTransactions_inv h
  exact (SameChain.refl M).with_pool pool

end PoolCalls

section Runs

/-- The calls that change a manager. -/
inductive Event
  | addBlocks (blocks : List (Time × Block))
  | addValidatedV2Blocks (now : Time) (blocks : List Block) (states : List State)
  | pruneBlocks (height : UInt64)
  | addV2PoolTransactions (basis : ChainIndex) (txns : List V2Transaction)
  | v2PoolTransactions

def Event.run (cfg : Config) : Event → Procedure Manager Unit
  | .addBlocks blocks => Manager.addBlocks cfg blocks
  | .addValidatedV2Blocks now blocks states => Manager.addValidatedV2Blocks cfg now blocks states
  | .pruneBlocks height => Manager.pruneBlocks cfg height
  | .addV2PoolTransactions basis txns => do
      let _ ← Manager.addV2PoolTransactions cfg basis txns
      return ()
  | .v2PoolTransactions => do
      let _ ← Manager.v2PoolTransactions cfg
      return ()

/-- The managers that a new one turns into by permitted calls, whether they return an error or not. -/
inductive Reachable (cfg : Config) (m : QdayManifest) (permitted : Manager → Event → Prop) : Manager → Prop
  | start {M : Manager} (hnew : newManager cfg.crypto m = .ok M) : Reachable cfg m permitted M
  | step {M M' : Manager} {e : Event} {r : Except String Unit} (hM : Reachable cfg m permitted M) (he : permitted M e)
      (hrun : exec (e.run cfg) M = .ok (r, M')) : Reachable cfg m permitted M'

/-- What may be passed to the calls: `AddBlocks` gets no block whose body was pruned, `AddValidatedV2Blocks` the
outcome of sequential validation. -/
def Proper (cfg : Config) (M : Manager) : Event → Prop
  | .addBlocks blocks => ∀ p ∈ blocks, ¬ M.store.Pruned (p.2.id cfg.crypto)
  | .addValidatedV2Blocks _ blocks states => Sequential cfg.crypto M.store blocks states
  | _ => True

variable {permitted permitted' : Manager → Event → Prop}

theorem Reachable.mono (hsub : ∀ M e, permitted M e → permitted' M e) (h : Reachable cfg m permitted M) :
    Reachable cfg m permitted' M := by
  induction h with
  | start hnew => exact Reachable.start hnew
  | step _ he hrun ih => exact Reachable.step ih (hsub _ _ he) hrun

variable {α : Type} {e : Event}

theorem exec_discard {p : Procedure Manager α}
    (h : exec (do let _ ← p; return ()) M = .ok (r, M')) : ∃ r', exec p M = .ok (r', M') := by
  rcases exec_bind_eq_ok.mp h with ⟨a,M₁,hp,h⟩ | ⟨msg,hp,-⟩
  · obtain ⟨-,rfl⟩ := ok_pair h
    exact ⟨_,hp⟩
  · exact ⟨_,hp⟩

theorem exec_discard_of {p : Procedure Manager α} {r : Except String α}
    (h : exec p M = .ok (r, M')) : ∃ r', exec (do let _ ← p; return ()) M = .ok (r', M') := by
  cases r with
  | ok a => exact ⟨_,exec_bind_eq_ok.mpr (.inl ⟨a,M',h,rfl⟩)⟩
  | error msg => exact ⟨_,exec_bind_eq_ok.mpr (.inr ⟨msg,h,rfl⟩)⟩

theorem Stable.run (h : Stable cfg I) (hprune : ∀ height, e ≠ .pruneBlocks height) (hI : I M) (hrun : exec (e.run cfg) M = .ok (r, M')) : I M' := by
  have hsame : ∀ {M'}, SameChain M M' → I M' := by
    rintro ⟨store,tipState,pool,ingested⟩ ⟨rfl,rfl,rfl⟩
    exact h.pool M pool hI
  cases e with
  | addBlocks blocks => exact Triple.keeps (h.addBlocks blocks) hI hrun
  | addValidatedV2Blocks now blocks states => exact Triple.keeps (h.addValidatedV2Blocks now blocks states) hI hrun
  | pruneBlocks height => exact absurd rfl (hprune height)
  | addV2PoolTransactions basis txns =>
    obtain ⟨r',hp⟩ := exec_discard hrun
    exact hsame (addV2PoolTransactions_sameChain hp)
  | v2PoolTransactions =>
    obtain ⟨r',hp⟩ := exec_discard hrun
    exact hsame (v2PoolTransactions_sameChain hp)

theorem Event.ingested (hrun : exec (e.run cfg) M = .ok (r, M')) :
    M.ingested <+: M'.ingested := by
  by_cases hprune : ∃ height, e = .pruneBlocks height
  · obtain ⟨height,rfl⟩ := hprune
    obtain ⟨-,rfl⟩ := ok_pair hrun
    exact List.prefix_refl _
  · exact stable_ingested.run (fun height heq => hprune ⟨height,heq⟩) (List.prefix_refl _) hrun

theorem Event.at_end (h : M.At cfg m bl ch) (hset : Setting cfg.crypto m S M'.ingested)
    (he : Proper cfg M e) (hrun : exec (e.run cfg) M = .ok (r, M')) : ∃ bl' ch', M'.At cfg m bl' ch' := by
  cases e with
  | addBlocks blocks => exact (addBlocks_at h hset he hrun).1
  | addValidatedV2Blocks now blocks states => exact (addValidatedV2Blocks_at h hset he hrun).1
  | pruneBlocks height =>
    obtain ⟨-,rfl⟩ := ok_pair hrun
    exact ⟨bl,ch,pruneStore_at (M := M) hset h height.toNat⟩
  | addV2PoolTransactions basis txns =>
    obtain ⟨r',hp⟩ := exec_discard hrun
    exact ⟨bl,ch,(addV2PoolTransactions_sameChain hp).tip h⟩
  | v2PoolTransactions =>
    obtain ⟨r',hp⟩ := exec_discard hrun
    exact ⟨bl,ch,(v2PoolTransactions_sameChain hp).tip h⟩

theorem newManager_at (hnew : newManager cfg.crypto m = .ok M) (hset : Setting cfg.crypto m S M.ingested) :
    ∃ ch, M.At cfg m [] ch := by
  simp only [newManager,bind_eq_ok,Prod.exists,pure_eq_ok] at hnew
  obtain ⟨st,tip,hst,rfl⟩ := hnew
  obtain ⟨root,cs,au,hroot,hstart,hindex,hstore,rfl⟩ := newDBStore_inv hst
  obtain ⟨ch,hchain,hstate⟩ : ∃ ch, m.chain cfg.crypto = .ok ch ∧ ch.state = cs := by
    rw [QdayManifest.chain,hroot,ok_bind,hstart,ok_bind]
    exact ⟨_,rfl,rfl⟩
  have hbranch : Branch cfg.crypto m [] [] ch := Branch.genesis hchain
  have hcs : cs.stored = cs := by
    rw [← hstate]
    exact hbranch.state_stored hset
  have hne : m.genesis.id cfg.crypto ≠ default := by
    have := hbranch.id_ne_default hset
    rwa [hstate,hindex] at this
  have htree := newDBStore_tree hst hne
  have hgenesis : m.genesis.stored = m.genesis := by
    have htime : m.genesis.timestamp.truncate = m.genesis.timestamp := Time.truncate_eq hset.whole
    rw [Block.stored,htime]
  have hrootIndex : root.index.id = default := by
    simp only [Network.genesisState,bind_eq_ok,pure_eq_ok] at hroot
    obtain ⟨_,-,_,-,rfl⟩ := hroot
    rfl
  have hstored : ∀ id, st.stored id = if id = m.genesis.id cfg.crypto then
      some ⟨m.genesis.header cfg.crypto,some m.genesis,some { transactions := [{}] }⟩ else none := by
    intro id
    rw [hstore,Store.stored_applyState,Store.stored_addState,Store.stored_addBlock,← Block.stored_header,hgenesis]
    rfl
  have hstates : ∀ id, st.state id = if id = m.genesis.id cfg.crypto then some cs else
      if id = default then some root.stored else none := by
    intro id
    rw [hstore,Store.state_applyState,Store.state_addState,Store.state_addBlock,Store.state_addState,hcs,hindex,
      hrootIndex]
    rfl
  have hid : ch.state.index = ⟨0,m.genesis.id cfg.crypto⟩ := by rw [hstate,hindex]
  have htip : st.HasTip cfg.crypto m [] ch := by
    refine ⟨?_,⟨m.genesis.header cfg.crypto,some m.genesis,some { transactions := [{}] }⟩,?_,rfl,.inr ⟨rfl,rfl⟩⟩
    · rw [hid,hstates,if_pos rfl,hstate]
    · rw [hid,hstored,if_pos rfl]
  have hheld : st.Held cfg.crypto m [] := by
    intro pre ch' hpre hrun
    obtain rfl := List.prefix_nil.mp hpre
    obtain rfl := hbranch.functional ⟨hrun,by simp⟩
    exact htip
  have honly : ∀ id sb, st.stored id = some sb → id = m.genesis.id cfg.crypto := by
    intro id sb hsb
    rw [hstored] at hsb
    split_ifs at hsb with hid
    exact hid
  have hmember : st.Member (m.genesis.id cfg.crypto) ⟨0,m.genesis.id cfg.crypto⟩ := ⟨[],Down.refl _,rfl⟩
  refine ⟨ch,hbranch,⟨⟨ch,hchain⟩,?_,htree,?_,?_,?_,?_⟩,hheld,hcs.trans hstate.symm,?_,?_,by simp⟩
  · intro s hs
    rw [hstates,if_neg hne.symm,if_pos rfl] at hs
    obtain rfl := Option.some.inj hs
    exact (genesisState_frame hroot).2.1
  · intro i hi
    obtain ⟨bh,hbh⟩ := htree.header_of_member hi
    obtain ⟨sb,hsb,-⟩ := Option.map_eq_some_iff.mp hbh
    rw [htree.member_unique hi hmember (honly _ _ hsb)]
    exact Nat.zero_le _
  · intro id sb hsb hnot
    obtain rfl := honly id sb hsb
    have hvalidated := htip.validated
    rw [hid] at hvalidated
    exact absurd hvalidated hnot
  · intro id s hs hne'
    rw [hstates] at hs
    split_ifs at hs with hgid
    · obtain rfl := Option.some.inj hs
      rw [hindex]
      exact ⟨hgid.symm,hmember⟩
  · rintro id ⟨sb,hsb,-⟩
    obtain rfl := honly id sb hsb
    exact ⟨[],ch,hbranch,congrArg ChainIndex.id hid,hheld⟩
  · rw [hstore,hid]
    exact congrArg ChainIndex.height hindex
  · intro h
    rw [hstore]
    change (AList.insert cs.index.height cs.index.id Store.empty.best).lookup h = _
    rw [hindex]
    by_cases hzero : h = 0
    · subst hzero
      rw [AList.lookup_insert]
      rfl
    · have hpos : h.toNat ≠ 0 := fun hh => hzero (UInt64.toNat_inj.mp hh)
      rw [AList.lookup_insert_ne hzero,List.getElem?_eq_none (by simp; omega)]
      rfl

theorem Reachable.at_end (h : Reachable cfg m (Proper cfg) M) (hset : Setting cfg.crypto m S M.ingested) :
    ∃ bl ch, M.At cfg m bl ch := by
  induction h with
  | start hnew =>
    obtain ⟨ch,hat⟩ := newManager_at hnew hset
    exact ⟨[],ch,hat⟩
  | step _ he hrun ih =>
    obtain ⟨bl,ch,hat⟩ := ih (hset.of_prefix (Event.ingested hrun))
    exact Event.at_end hat hset he hrun

/-- The calls of a node that does not prune. -/
def Unpruned (cfg : Config) (M : Manager) : Event → Prop
  | .addValidatedV2Blocks _ blocks states => Sequential cfg.crypto M.store blocks states
  | .pruneBlocks _ => False
  | _ => True

theorem stable_unpruned : Stable cfg fun M => ∀ id, ¬ M.store.Pruned id := by
  have hadd : ∀ (st : Store) (b : Block) (bs : Option V1BlockSupplement), (∀ id, ¬ st.Pruned id) →
      ∀ id, ¬ (st.addBlock cfg.crypto b bs).Pruned id := by
    rintro st b bs hst id ⟨sb,hsb,hnone⟩
    rw [Store.stored_addBlock] at hsb
    split_ifs at hsb
    · obtain rfl := Option.some.inj hsb
      cases hnone
    · exact hst id ⟨sb,hsb,hnone⟩
  refine ⟨⟨⟨⟨fun _ h => h,fun _ _ _ _ h => h,fun _ _ _ _ _ h => h,?_⟩,?_⟩,?_⟩,fun _ _ h => h⟩
  · intro M b bs cs pool _ h
    exact hadd (M.store.addState cs) b (some bs) h
  · intro M cs now b next _ h
    exact hadd (M.store.addState next) b none h
  · intro M now parent p h
    exact hadd M.store p.1 (some {}) h

theorem Reachable.unpruned (h : Reachable cfg m (Unpruned cfg) M) : ∀ id, ¬ M.store.Pruned id := by
  induction h with
  | start hnew =>
    simp only [newManager,bind_eq_ok,Prod.exists,pure_eq_ok] at hnew
    obtain ⟨st,tip,hst,rfl⟩ := hnew
    obtain ⟨root,cs,au,-,-,-,rfl,-⟩ := newDBStore_inv hst
    rintro id ⟨sb,hsb,hnone⟩
    rw [Store.stored_applyState,Store.stored_addState,Store.stored_addBlock] at hsb
    split_ifs at hsb
    · obtain rfl := Option.some.inj hsb
      cases hnone
    · cases hsb
  | step _ he hrun ih =>
    refine stable_unpruned.run ?_ ih hrun
    rintro height rfl
    exact he

theorem Reachable.event_proper (h : Reachable cfg m (Unpruned cfg) M) (he : Unpruned cfg M e) : Proper cfg M e := by
  cases e with
  | addBlocks blocks => exact fun p _ => h.unpruned _
  | addValidatedV2Blocks now blocks states => exact he
  | pruneBlocks height => exact trivial
  | addV2PoolTransactions basis txns => exact trivial
  | v2PoolTransactions => exact trivial

theorem Reachable.proper (h : Reachable cfg m (Unpruned cfg) M) : Reachable cfg m (Proper cfg) M := by
  induction h with
  | start hnew => exact Reachable.start hnew
  | step hM he hrun ih => exact Reachable.step ih (hM.event_proper he) hrun

end Runs

section Samples

def sampleConfig : Config := ⟨sampleCrypto, fun _ => none, fun _ _ => {}⟩

def sampleMined (s : State) (timestamp : Time) (markerNonce nonce : UInt64) : Outcome Block := do
  let b ← candidateWithNonce sampleCrypto s sampleKeys [] timestamp markerNonce
  return { b with timestamp, nonce }

/-- A new manager and what becomes of it when a first block is added. -/
def sampleAdded : Outcome (Manager × Block × Manager) := do
  let M ← newManager sampleCrypto sampleManifest
  let b ← sampleMined M.tipState sampleTime 0 0
  let (_, M') ← exec (Manager.addBlocks sampleConfig [(sampleTime, b)]) M
  return (M, b, M')

theorem sampleAdded_reachable (h : sampleAdded = .ok (M, b, M')) :
    newManager sampleCrypto sampleManifest = .ok M ∧
      (∃ r, exec (Manager.addBlocks sampleConfig [(sampleTime, b)]) M = .ok (r, M')) ∧
      Reachable sampleConfig sampleManifest (Unpruned sampleConfig) M' := by
  simp only [sampleAdded,bind_eq_ok,pure_eq_ok,Prod.exists,Prod.mk.injEq] at h
  obtain ⟨M₀,hnew,b₀,-,r,M₁,hrun,rfl,rfl,rfl⟩ := h
  exact ⟨hnew,⟨r,hrun⟩,Reachable.step (e := .addBlocks [(sampleTime, b₀)]) (Reachable.start hnew) trivial hrun⟩

/-- The one block that the manager has taken in, with the chains before and after it. -/
def sampleIngested : Outcome (Manager × Block × Manager × Ingestion × Chain × Chain) := do
  let (M, b, M') ← sampleAdded
  match M'.ingested with
  | [i] => do
      let ch₀ ← sampleManifest.chain sampleCrypto
      let ch₁ ← ch₀.extend sampleCrypto noTimestamp i.block
      return (M, b, M', i, ch₀, ch₁)
  | _ => fail "not one block"

theorem sampleIngested_inv {i : Ingestion} {ch₀ ch₁ : Chain}
    (h : sampleIngested = .ok (M, b, M', i, ch₀, ch₁)) :
    sampleAdded = .ok (M, b, M') ∧ M'.ingested = [i] ∧ sampleManifest.chain sampleCrypto = .ok ch₀ ∧
      ch₀.extend sampleCrypto noTimestamp i.block = .ok ch₁ := by
  simp only [sampleIngested,bind_eq_ok,Prod.exists] at h
  obtain ⟨M₀,b₀,M₁,hadded,h⟩ := h
  split at h
  · rename_i i₀ hlog
    simp only [bind_eq_ok,pure_eq_ok,Prod.mk.injEq] at h
    obtain ⟨ch,hstart,ch',hext,rfl,rfl,rfl,rfl,rfl,rfl⟩ := h
    exact ⟨hadded,hlog,hstart,hext⟩
  · cases h

/-- What is checked of the sample block: among other things, nothing collides with the strings `extra`. -/
def sampleChecks (extra : Chain → List Bytes) : Bool :=
  sampleIngested.holds fun (_, b, M', i, ch₀, ch₁) => decide (M'.tipState.index.id = b.id sampleCrypto ∧ i.block.timestamp.nsec = 0 ∧
    i.block.id sampleCrypto ≠ i.block.parentID ∧ i.block.v2Transactions.length < 2^63 ∧
    (∀ txn ∈ i.block.v2Transactions, txn.encode.length < 2^64) ∧
    ((ch₁.messages ++ i.block.commitmentStrings sampleCrypto ch₀.state ++ extra ch₀).dedup.map sampleCrypto.sum256).Nodup ∧
    (∀ x ∈ ch₁.messages ++ i.block.commitmentStrings sampleCrypto ch₀.state ++ extra ch₀, sampleCrypto.sum256 x ≠ default) ∧
    ch₀.leaves.length ≤ 2^63 ∧ ch₁.leaves.length ≤ 2^63)

theorem sampleAdded_with {extra : Chain → List Bytes} (hcheck : sampleChecks extra = true) : ∃ S M b M' ch₀,
    sampleAdded = .ok (M, b, M') ∧ M'.tipState.index.id = b.id sampleCrypto ∧ Setting sampleCrypto sampleManifest S M'.ingested ∧
    (∀ bl ch, Branch sampleCrypto sampleManifest M'.ingested bl ch → ch.leaves.length ≤ 2^63) ∧
    sampleManifest.chain sampleCrypto = .ok ch₀ ∧ ∀ x ∈ extra ch₀, x ∈ S := by
  obtain ⟨⟨M,b,M',i,ch₀,ch₁⟩,hrun,hcheck⟩ := exists_of_holds hcheck
  obtain ⟨htip,hwhole,hne,hcount,hsizes,hnodup,hideal,hroom₀,hroom₁⟩ := of_decide_eq_true hcheck
  obtain ⟨hadded,hlog,hstart,hext⟩ := sampleIngested_inv hrun
  have hstored : i.block.stored = i.block := by rw [Block.stored,Time.truncate_eq hwhole]
  refine ⟨{x | x ∈ ch₁.messages ++ i.block.commitmentStrings sampleCrypto ch₀.state ++ extra ch₀},M,b,M',ch₀,hadded,htip,?_,?_,
    hstart,fun x hx => List.mem_append_right _ hx⟩
  · rw [hlog]
    exact Setting.single (idealOn_of_nodup hnodup hideal) rfl hstored ⟨hcount,hsizes⟩ hstart hext hne
      (fun x hx => List.mem_append_left _ (List.mem_append_left _ hx)) fun x hx => List.mem_append_left _ (List.mem_append_right _ hx)
  · intro bl ch hbranch
    rw [hlog] at hbranch
    rcases hbranch.single hstored hstart hext hne with ⟨-,rfl⟩ | ⟨-,rfl⟩
    · exact hroom₀
    · exact hroom₁

theorem sampleAdded_world : ∃ S M b M', sampleAdded = .ok (M, b, M') ∧ M'.tipState.index.id = b.id sampleCrypto ∧
    Setting sampleCrypto sampleManifest S M'.ingested ∧
    ∀ bl ch, Branch sampleCrypto sampleManifest M'.ingested bl ch → ch.leaves.length ≤ 2^63 := by
  obtain ⟨S,M,b,M',-,hadded,htip,hset,hroom,-⟩ := @sampleAdded_with (fun _ => []) (by decide +kernel)
  exact ⟨S,M,b,M',hadded,htip,hset,hroom⟩

theorem sampleAdded_setting : ∃ S M b M', sampleAdded = .ok (M, b, M') ∧ M'.tipState.index.id = b.id sampleCrypto ∧
    Setting sampleCrypto sampleManifest S M'.ingested := by
  obtain ⟨S,M,b,M',hadded,htip,hset,-⟩ := sampleAdded_world
  exact ⟨S,M,b,M',hadded,htip,hset⟩

end Samples

end QdayNode
