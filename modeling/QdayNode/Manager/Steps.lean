import QdayNode.Manager.Manager

/-!
# What the steps of the manager do

One lemma for every transition of the manager: everything that can have happened when
it ends without a panic.
-/
namespace QdayNode
open ByteString Procedure Outcome

variable {r : Except String Unit} {cs : State} {now : Time}

def TxPool.takeBack (c : Crypto) (start pool : TxPool) : TxPool where
  v2txns := pool.v2txns.take start.v2txns.length
  indices := (pool.v2txns.drop start.v2txns.length).foldl (fun indices txn => indices.erase (txn.id c)) pool.indices
  ms := none
  weight := start.weight

namespace Manager

variable {cfg : Config} {M M' : Manager} {index : ChainIndex}

section Tip

def reverted (cfg : Config) (M : Manager) (b : Block) (cs : State) (pool : TxPool) : Manager :=
  { M with
    store := M.store.revertState cs
    tipState := cs
    pool := restoreQdayPool cfg.crypto b.v2Transactions pool }

theorem revertTip_inv (h : exec (revertTip cfg) M = .ok (r, M')) :
    (blockAndParent M.store M.tipState.index.id = none ∧ (∃ msg, r = .error msg) ∧ M' = M) ∨
      ∃ b bs cs cru pool, blockAndParent M.store M.tipState.index.id = some (b, some bs, cs) ∧
        revertBlock cfg.crypto cs b bs = .ok cru ∧ revertPoolUpdate cfg.crypto cru cs M.pool = .ok pool ∧
        r = .ok () ∧ M' = reverted cfg M b cs pool := by
  rw [revertTip,exec_get_bind] at h
  cases hblock : blockAndParent M.store M.tipState.index.id with
  | none =>
    rw [hblock] at h
    obtain ⟨rfl,rfl⟩ := ok_pair h
    exact .inl ⟨rfl,⟨_,rfl⟩,rfl⟩
  | some found =>
    obtain ⟨b,bs,cs⟩ := found
    rw [hblock] at h
    cases bs with
    | none => exact absurd h exec_must_crash
    | some bs =>
      simp only [exec_must_bind_eq_ok] at h
      obtain ⟨cru,hcru,pool,hpool,h⟩ := h
      obtain ⟨rfl,rfl⟩ := ok_pair h
      exact .inr ⟨b,bs,cs,cru,pool,rfl,hcru,hpool,rfl,rfl⟩

def advanced (M : Manager) (store : Store) (cs : State) (pool : TxPool) : Manager :=
  { M with
    store := store.applyState cs
    tipState := cs
    pool }

theorem advanceTip_inv {store : Store} {cau : ApplyUpdate}
    (h : exec (advanceTip cfg store cs cau) M = .ok (r, M')) :
    ∃ pool, applyPoolUpdate cfg.crypto cau cs M.pool = .ok pool ∧ r = .ok () ∧ M' = advanced M store cs pool := by
  rw [advanceTip,exec_get_bind,exec_must_bind_eq_ok] at h
  obtain ⟨pool,hpool,h⟩ := h
  obtain ⟨rfl,rfl⟩ := ok_pair h
  exact ⟨pool,hpool,rfl,rfl⟩

/-- Why `applyTip` cannot apply a block. -/
def Inapplicable (cfg : Config) (M : Manager) (index : ChainIndex) : Prop :=
  M.store.block index.id = none ∨ (∃ b, M.store.block index.id = some (b, none)) ∨
    ∃ b bs, M.store.block index.id = some (b, some bs) ∧
      (M.store.ancestorTimestamp b.parentID = none ∨ ∃ msg, overwriteExpirations cfg b bs = .error (.error msg))

/-- The block that `applyTip` applies, with the store and the supplement it is applied with. -/
structure Applicable (cfg : Config) (M : Manager) (index : ChainIndex) (b : Block) (bs : V1BlockSupplement) (cs : State)
    (cau : ApplyUpdate) (store : Store) : Prop where
  parent : b.parentID = M.tipState.index.id
  apply : ∃ t, M.store.ancestorTimestamp b.parentID = some t ∧ applyBlock cfg.crypto M.tipState b bs t = .ok (cs, cau)
  source : (M.store.block index.id = some (b, none) ∧
      overwriteExpirations cfg b (M.store.supplementTipBlock (cfg.supplementTipTransaction M.store) b) = .ok bs ∧
      validateBlock cfg.crypto M.tipState b bs = .ok () ∧
      store = (M.store.addState cs).addBlock cfg.crypto b (some bs)) ∨
    ∃ bs₀, M.store.block index.id = some (b, some bs₀) ∧ overwriteExpirations cfg b bs₀ = .ok bs ∧ store = M.store

theorem applyTip_inv (h : exec (applyTip cfg index) M = .ok (r, M')) :
    (Inapplicable cfg M index ∧ (∃ msg, r = .error msg) ∧ M' = M) ∨
      ∃ b bs cs cau store pool, Applicable cfg M index b bs cs cau store ∧
        applyPoolUpdate cfg.crypto cau cs M.pool = .ok pool ∧ r = .ok () ∧ M' = advanced M store cs pool := by
  rw [applyTip,exec_get_bind] at h
  cases hblock : M.store.block index.id with
  | none =>
    rw [hblock] at h
    obtain ⟨rfl,rfl⟩ := ok_pair h
    exact .inl ⟨.inl hblock,⟨_,rfl⟩,rfl⟩
  | some found =>
    obtain ⟨b,stored⟩ := found
    rw [hblock] at h
    dsimp only at h
    split_ifs at h with hparent
    · exact absurd h exec_must_crash
    rw [ne_eq,not_not] at hparent
    cases stored with
    | none =>
      have hfail : Inapplicable cfg M index := .inr (.inl ⟨b,hblock⟩)
      rcases exec_call_bind_eq_ok.mp h with ⟨bs,hbs,h⟩ | ⟨msg,-,rfl,rfl⟩
      · rcases exec_call_bind_eq_ok.mp h with ⟨⟨⟩,hvalid,h⟩ | ⟨msg,-,rfl,rfl⟩
        · cases htime : M.store.ancestorTimestamp b.parentID with
          | none =>
            rw [htime] at h
            obtain ⟨rfl,rfl⟩ := ok_pair h
            exact .inl ⟨hfail,⟨_,rfl⟩,rfl⟩
          | some t =>
            rw [htime] at h
            obtain ⟨⟨cs,cau⟩,happly,h⟩ := exec_must_bind_eq_ok.mp h
            obtain ⟨pool,hpool,rfl,rfl⟩ := advanceTip_inv h
            exact .inr ⟨b,bs,cs,cau,_,pool,⟨hparent,⟨t,htime,happly⟩,.inl ⟨hblock,hbs,hvalid,rfl⟩⟩,
              hpool,rfl,rfl⟩
        · exact .inl ⟨hfail,⟨_,rfl⟩,rfl⟩
      · exact .inl ⟨hfail,⟨_,rfl⟩,rfl⟩
    | some bs₀ =>
      cases htime : M.store.ancestorTimestamp b.parentID with
      | none =>
        simp only [htime] at h
        obtain ⟨rfl,rfl⟩ := ok_pair h
        exact .inl ⟨.inr (.inr ⟨b,bs₀,hblock,.inl htime⟩),⟨_,rfl⟩,rfl⟩
      | some t =>
        simp only [htime] at h
        rcases exec_call_bind_eq_ok.mp h with ⟨bs,hbs,h⟩ | ⟨msg,hbs,rfl,rfl⟩
        · obtain ⟨⟨cs,cau⟩,happly,h⟩ := exec_must_bind_eq_ok.mp h
          obtain ⟨pool,hpool,rfl,rfl⟩ := advanceTip_inv h
          exact .inr ⟨b,bs,cs,cau,_,pool,⟨hparent,⟨t,htime,happly⟩,.inr ⟨bs₀,hblock,hbs,rfl⟩⟩,
            hpool,rfl,rfl⟩
        · exact .inl ⟨.inr (.inr ⟨b,bs₀,hblock,.inr ⟨msg,hbs⟩⟩),⟨_,rfl⟩,rfl⟩

end Tip

section Reorg

/-- A reorganization reverts, then applies, and gives up the cached state of the pool at the end. -/
theorem reorgTo_inv {revert apply : List ChainIndex}
    (hpath : reorgPath M.store M.tipState.index index maxInt = .ok (revert, apply))
    (h : exec (reorgTo cfg index) M = .ok (r, M')) :
    ∃ r₁ M₁, exec (revert.foldlM (fun _ _ => revertTip cfg) ()) M = .ok (r₁, M₁) ∧
      ((∃ msg, r₁ = .error msg ∧ r = .error msg ∧ M' = M₁) ∨
        (r₁ = .ok () ∧ ∃ r₂ M₂, exec (apply.foldlM (fun _ index => applyTip cfg index) ()) M₁ = .ok (r₂, M₂) ∧
          ((∃ msg, r₂ = .error msg ∧ r = .error msg ∧ M' = M₂) ∨
            (r₂ = .ok () ∧ r = .ok () ∧ M' = { M₂ with pool.ms := none })))) := by
  rw [reorgTo,exec_get_bind] at h
  rcases exec_call_bind_eq_ok.mp h with ⟨path,hpath',h⟩ | ⟨msg,hpath',-,-⟩
  · obtain rfl := Except.ok.inj (hpath.symm.trans hpath')
    rcases exec_bind_eq_ok.mp h with ⟨⟨⟩,M₁,hrevert,h⟩ | ⟨msg,hrevert,rfl⟩
    · rcases exec_bind_eq_ok.mp h with ⟨⟨⟩,M₂,happly,h⟩ | ⟨msg,happly,rfl⟩
      · obtain ⟨rfl,rfl⟩ := ok_pair h
        exact ⟨_,M₁,hrevert,.inr ⟨rfl,_,M₂,happly,.inr ⟨rfl,rfl,rfl⟩⟩⟩
      · exact ⟨_,M₁,hrevert,.inr ⟨rfl,_,M',happly,.inl ⟨msg,rfl,rfl,rfl⟩⟩⟩
    · exact ⟨_,M',hrevert,.inl ⟨msg,rfl,rfl,rfl⟩⟩
  · rw [hpath] at hpath'
    cases hpath'

/-- What the end of `AddBlocks` does: nothing, a reorganization, or one that fails and one back. -/
theorem followBest_inv (h : exec (followBest cfg cs) M = .ok (r, M')) :
    ∃ heavier, cs.sufficientlyHeavierThan M.tipState = .ok heavier ∧
      ((heavier = false ∧ r = .ok () ∧ M' = M) ∨
        (heavier = true ∧ r = .ok () ∧ exec (reorgTo cfg cs.index) M = .ok (.ok (), M')) ∨
        (heavier = true ∧ (∃ msg, r = .error msg) ∧ ∃ msg M₁ r₁, exec (reorgTo cfg cs.index) M = .ok (.error msg, M₁) ∧
          exec (reorgTo cfg M.tipState.index) M₁ = .ok (r₁, M'))) := by
  rw [followBest,exec_get_bind] at h
  obtain ⟨heavier,hheavier,h⟩ := exec_must_bind_eq_ok.mp h
  refine ⟨heavier,hheavier,?_⟩
  split_ifs at h with htrue
  · rw [exec_tryCatch,bind_eq_ok] at h
    obtain ⟨⟨r₁,M₁⟩,hreorg,h⟩ := h
    cases r₁ with
    | ok u =>
      obtain ⟨rfl,rfl⟩ := ok_pair h
      exact .inr (.inl ⟨htrue,rfl,hreorg⟩)
    | error msg =>
      rcases exec_bind_eq_ok.mp h with ⟨⟨⟩,M₂,hback,h⟩ | ⟨msg',hback,rfl⟩
      · obtain ⟨rfl,rfl⟩ := ok_pair h
        exact .inr (.inr ⟨htrue,⟨_,rfl⟩,msg,M₁,_,hreorg,hback⟩)
      · exact .inr (.inr ⟨htrue,⟨_,rfl⟩,msg,M₁,_,hreorg,hback⟩)
  · obtain ⟨rfl,rfl⟩ := ok_pair h
    exact .inl ⟨Bool.eq_false_iff.mpr htrue,rfl,rfl⟩

end Reorg

section Ingestion

variable {next : State} {b : Block} {r : Except String State}

/-- The manager after a block has been taken in with the state that its header leads to. -/
def ingestedOn (cfg : Config) (M : Manager) (cs : State) (now : Time) (b : Block) (next : State) : Manager :=
  { M with
    store := (M.store.addState next).addBlock cfg.crypto b none
    ingested := M.ingested ++ [Ingestion.mk b now cs] }

/-- What `AddBlocks` has checked of a block that it takes in on the state `cs` of its parent. -/
structure Ingested (cfg : Config) (M : Manager) (cs : State) (now : Time) (b : Block) (next : State) : Prop where
  time : b.timestamp.after (cs.maxFutureTimestamp now) = false
  orphan : validateOrphan cfg.crypto cs b = .ok ()
  apply : ∃ t, M.store.ancestorTimestamp b.parentID = some t ∧ applyHeader cfg.crypto cs (b.header cfg.crypto) t = .ok next

theorem ingestOn_inv (h : exec (ingestOn cfg cs now b) M = .ok (r, M')) :
    ((∃ msg, r = .error msg) ∧ M' = M) ∨
      ∃ next, Ingested cfg M cs now b next ∧ r = .ok next ∧ M' = ingestedOn cfg M cs now b next := by
  rw [ingestOn,exec_get_bind] at h
  split_ifs at h with htime
  · obtain ⟨rfl,rfl⟩ := ok_pair h
    exact .inl ⟨⟨_,rfl⟩,rfl⟩
  rcases exec_call_bind_eq_ok.mp h with ⟨⟨⟩,horphan,h⟩ | ⟨msg,-,rfl,rfl⟩
  · cases htimestamp : M.store.ancestorTimestamp b.parentID with
    | none =>
      rw [htimestamp] at h
      obtain ⟨rfl,rfl⟩ := ok_pair h
      exact .inl ⟨⟨_,rfl⟩,rfl⟩
    | some t =>
      rw [htimestamp] at h
      obtain ⟨next,happly,h⟩ := exec_must_bind_eq_ok.mp h
      obtain ⟨rfl,rfl⟩ := ok_pair h
      exact .inr ⟨next,⟨Bool.eq_false_iff.mpr htime,horphan,t,htimestamp,happly⟩,rfl,rfl⟩
  · exact .inl ⟨⟨_,rfl⟩,rfl⟩

theorem ingest_inv (h : exec (ingest cfg cs now b) M = .ok (r, M')) :
    ((∃ msg, r = .error msg) ∧ M' = M) ∨
      (∃ known, (∃ b' bs, M.store.block (b.id cfg.crypto) = some (b', some bs)) ∧
        M.store.state (b.id cfg.crypto) = some known ∧ r = .ok known ∧ M' = M) ∨
      ∃ parent next, (∀ b' bs, M.store.block (b.id cfg.crypto) ≠ some (b', some bs)) ∧
        (parent = cs ∨ M.store.state b.parentID = some parent) ∧ Ingested cfg M parent now b next ∧
        r = .ok next ∧ M' = ingestedOn cfg M parent now b next := by
  rw [ingest,exec_get_bind] at h
  split_ifs at h with hknown hparent
  · have hblock : ∃ b' bs, M.store.block (b.id cfg.crypto) = some (b', some bs) := by
      obtain ⟨bs,hbs⟩ := Option.isSome_iff_exists.mp hknown
      obtain ⟨⟨b',bs'⟩,hb',rfl⟩ := Option.bind_eq_some_iff.mp hbs
      exact ⟨b',bs,hb'⟩
    cases hstate : M.store.state (b.id cfg.crypto) with
    | none =>
      rw [hstate] at h
      exact absurd h exec_must_crash
    | some known =>
      rw [hstate] at h
      obtain ⟨rfl,rfl⟩ := ok_pair h
      exact .inr (.inl ⟨known,hblock,rfl,rfl,rfl⟩)
  · have hblock : ∀ b' bs, M.store.block (b.id cfg.crypto) ≠ some (b', some bs) := by
      intro b' bs hb'
      exact hknown (by rw [hb']; rfl)
    rcases ingestOn_inv h with herror | ⟨next,hnext,rfl,rfl⟩
    · exact .inl herror
    · exact .inr (.inr ⟨cs,next,hblock,.inl rfl,hnext,rfl,rfl⟩)
  · have hblock : ∀ b' bs, M.store.block (b.id cfg.crypto) ≠ some (b', some bs) := by
      intro b' bs hb'
      exact hknown (by rw [hb']; rfl)
    cases hstate : M.store.state b.parentID with
    | none =>
      rw [hstate] at h
      obtain ⟨rfl,rfl⟩ := ok_pair h
      exact .inl ⟨⟨_,rfl⟩,rfl⟩
    | some parent =>
      rw [hstate] at h
      rcases ingestOn_inv h with herror | ⟨next,hnext,rfl,rfl⟩
      · exact .inl herror
      · exact .inr (.inr ⟨parent,next,hblock,.inr rfl,hnext,rfl,rfl⟩)

def stored (cfg : Config) (M : Manager) (now : Time) (parent : State) (p : Block × State) : Manager :=
  { M with
    store := (M.store.addBlock cfg.crypto p.1 (some {})).addState p.2
    ingested := M.ingested ++ [⟨p.1, now, parent⟩] }

theorem ingestValidated_inv {parent : State} {p : Block × State}
    (h : exec (ingestValidated cfg now parent p) M = .ok (r, M')) :
    ((∃ msg, r = .error msg) ∧ M' = M ∧ p.1.v2 = none) ∨ (r = .ok p.2 ∧ M' = stored cfg M now parent p) := by
  rw [ingestValidated] at h
  split_ifs at h with hv2
  · obtain ⟨rfl,rfl⟩ := ok_pair h
    exact .inl ⟨⟨_,rfl⟩,rfl,Option.isNone_iff_eq_none.mp hv2⟩
  · rcases exec_bind_eq_ok.mp h with ⟨⟨⟩,M₁,hmodify,h⟩ | ⟨msg,hmodify,-⟩
    · obtain ⟨-,rfl⟩ := ok_pair hmodify
      obtain ⟨rfl,rfl⟩ := ok_pair h
      exact .inr ⟨rfl,rfl⟩
    · cases (ok_pair hmodify).1

end Ingestion

section Calls

theorem addBlocks_inv {blocks : List (Time × Block)} (h : exec (addBlocks cfg blocks) M = .ok (r, M')) :
    (blocks = [] ∧ r = .ok () ∧ M' = M) ∨
      ∃ r₁ M₁, exec (blocks.foldlM (fun cs p => ingest cfg cs p.1 p.2) M.tipState) M = .ok (r₁, M₁) ∧
        ((∃ msg, r₁ = .error msg ∧ r = .error msg ∧ M' = M₁) ∨
          ∃ cs, r₁ = .ok cs ∧ exec (followBest cfg cs) M₁ = .ok (r, M')) := by
  rw [addBlocks] at h
  split_ifs at h with hempty
  · obtain ⟨rfl,rfl⟩ := ok_pair h
    exact .inl ⟨List.isEmpty_iff.mp hempty,rfl,rfl⟩
  · rw [exec_get_bind] at h
    rcases exec_bind_eq_ok.mp h with ⟨cs,M₁,hfold,h⟩ | ⟨msg,hfold,rfl⟩
    · exact .inr ⟨_,M₁,hfold,.inr ⟨cs,rfl,h⟩⟩
    · exact .inr ⟨_,M',hfold,.inl ⟨msg,rfl,rfl,rfl⟩⟩

/-- `AddValidatedV2Blocks` stores the blocks with their states and follows the last one. -/
theorem addValidatedV2Blocks_inv {first : Block} {blocks : List Block} {states : List State}
    (h : exec (addValidatedV2Blocks cfg now (first :: blocks) states) M = .ok (r, M')) :
    ((∃ msg, r = .error msg) ∧ M' = M) ∨
      ∃ parent r₁ M₁, M.store.state first.parentID = some parent ∧ states.length = (first :: blocks).length ∧
        exec (((first :: blocks).zip states).foldlM (ingestValidated cfg now) parent) M = .ok (r₁, M₁) ∧
        ((∃ msg, r₁ = .error msg ∧ r = .error msg ∧ M' = M₁) ∨
          ∃ cs, r₁ = .ok cs ∧ exec (followBest cfg cs) M₁ = .ok (r, M')) := by
  rw [addValidatedV2Blocks] at h
  split_ifs at h with hlen
  · obtain ⟨rfl,rfl⟩ := ok_pair h
    exact .inl ⟨⟨_,rfl⟩,rfl⟩
  · rw [exec_get_bind] at h
    cases hparent : M.store.state first.parentID with
    | none =>
      rw [hparent] at h
      obtain ⟨rfl,rfl⟩ := ok_pair h
      exact .inl ⟨⟨_,rfl⟩,rfl⟩
    | some parent =>
      rw [hparent] at h
      rw [ne_eq,not_not] at hlen
      rcases exec_bind_eq_ok.mp h with ⟨cs,M₁,hfold,h⟩ | ⟨msg,hfold,rfl⟩
      · exact .inr ⟨parent,_,M₁,rfl,hlen,hfold,.inr ⟨cs,rfl,h⟩⟩
      · exact .inr ⟨parent,_,M',rfl,hlen,hfold,.inl ⟨msg,rfl,rfl,rfl⟩⟩

end Calls

section PoolCalls

theorem revalidate_inv (h : exec (revalidate cfg) M = .ok (r, M')) :
    ∃ pool, revalidatePool cfg.crypto M.tipState M.pool = .ok pool ∧ r = .ok () ∧ M' = { M with pool } := by
  rw [revalidate,exec_get_bind] at h
  obtain ⟨pool,hpool,h⟩ := exec_must_bind_eq_ok.mp h
  obtain ⟨rfl,rfl⟩ := ok_pair h
  exact ⟨pool,hpool,rfl,rfl⟩

theorem revalidate_eq {pool : TxPool} (h : revalidatePool cfg.crypto M.tipState M.pool = .ok pool) :
    exec (revalidate cfg) M = .ok (.ok (), { M with pool }) := by
  rw [revalidate,exec_get_bind]
  exact exec_must_bind_eq_ok.mpr ⟨pool,h,rfl⟩

theorem v2PoolTransactions_eq {pool : TxPool} (h : revalidatePool cfg.crypto M.tipState M.pool = .ok pool) :
    exec (v2PoolTransactions cfg) M = .ok (.ok pool.v2txns, { M with pool }) :=
  exec_bind_eq_ok.mpr (.inl ⟨(),_,revalidate_eq h,rfl⟩)

theorem v2PoolTransactions_inv {r : Except String (List V2Transaction)}
    (h : exec (v2PoolTransactions cfg) M = .ok (r, M')) :
    ∃ pool, revalidatePool cfg.crypto M.tipState M.pool = .ok pool ∧ r = .ok pool.v2txns ∧ M' = { M with pool } := by
  rw [v2PoolTransactions] at h
  rcases exec_bind_eq_ok.mp h with ⟨⟨⟩,M₁,hrevalidate,h⟩ | ⟨msg,hrevalidate,-⟩
  · obtain ⟨pool,hpool,-,rfl⟩ := revalidate_inv hrevalidate
    obtain ⟨rfl,rfl⟩ := ok_pair h
    exact ⟨pool,hpool,rfl,rfl⟩
  · obtain ⟨-,-,hbad,-⟩ := revalidate_inv hrevalidate
    cases hbad

theorem addTxn_inv {start : TxPool} {txn : V2Transaction} (h : exec (addTxn cfg start txn) M = .ok (r, M')) :
    (r = .ok () ∧ M' = M) ∨ ((∃ msg, r = .error msg) ∧ M' = { M with pool := start.takeBack cfg.crypto M.pool }) ∨
      ∃ ms ms', M.pool.ms = some ms ∧ M.pool.indices.lookup (txn.id cfg.crypto) = none ∧
        validateV2Transaction cfg.crypto ms txn = .ok () ∧ ms.applyV2Transaction cfg.crypto txn = .ok ms' ∧
        r = .ok () ∧ M' = { M with pool := M.pool.push cfg.crypto ms' txn } := by
  rw [addTxn,exec_get_bind] at h
  split_ifs at h with hknown
  · obtain ⟨rfl,rfl⟩ := ok_pair h
    exact .inl ⟨rfl,rfl⟩
  cases hms : M.pool.ms with
  | none =>
    rw [hms] at h
    exact absurd h exec_must_crash
  | some ms =>
    rw [hms] at h
    obtain ⟨verdict,hverdict,h⟩ := exec_must_bind_eq_ok.mp h
    cases verdict with
    | none =>
      rcases exec_bind_eq_ok.mp h with ⟨⟨⟩,M₁,hset,h⟩ | ⟨msg,hset,-⟩
      · obtain ⟨-,rfl⟩ := ok_pair hset
        obtain ⟨rfl,rfl⟩ := ok_pair h
        exact .inr (.inl ⟨⟨_,rfl⟩,rfl⟩)
      · cases (ok_pair hset).1
    | some u =>
      obtain ⟨ms',happly,h⟩ := exec_must_bind_eq_ok.mp h
      obtain ⟨rfl,rfl⟩ := ok_pair h
      exact .inr (.inr ⟨ms,ms',rfl,by simpa using hknown,attempt_eq_some.mp hverdict,happly,rfl,rfl⟩)

/-- `AddV2PoolTransactions` revalidates the pool; then it stops, or adds what the set has become. -/
theorem addV2PoolTransactions_inv {basis : ChainIndex} {txns : List V2Transaction} {r : Except String Bool}
    (h : exec (addV2PoolTransactions cfg basis txns) M = .ok (r, M')) :
    ∃ pool, revalidatePool cfg.crypto M.tipState M.pool = .ok pool ∧
      (M' = { M with pool } ∨ ∃ (updated : List V2Transaction) (r₁ : Except String Unit),
        updateV2TransactionProofs cfg M.store txns basis M.tipState.index = .ok updated ∧
        exec (updated.foldlM (fun _ txn => addTxn cfg pool txn) ()) { M with pool } = .ok (r₁, M') ∧ ((r₁ = .ok () ∧ r = .ok false) ∨ ∃ msg, r₁ = .error msg ∧ r = .error msg)) := by
  rw [addV2PoolTransactions] at h
  rcases exec_bind_eq_ok.mp h with ⟨⟨⟩,M₁,hrevalidate,h⟩ | ⟨msg,hrevalidate,-⟩
  · obtain ⟨pool,hpool,-,rfl⟩ := revalidate_inv hrevalidate
    refine ⟨pool,hpool,?_⟩
    rw [exec_get_bind] at h
    split_ifs at h
    · exact .inl (ok_pair h).2.symm
    rcases exec_call_bind_eq_ok.mp h with ⟨updated,hupdate,h⟩ | ⟨msg,-,rfl,rfl⟩
    · rcases exec_call_bind_eq_ok.mp h with ⟨known,-,h⟩ | ⟨msg,-,rfl,rfl⟩
      · split_ifs at h
        · exact .inl (ok_pair h).2.symm
        · rcases exec_bind_eq_ok.mp h with ⟨⟨⟩,M₂,hloop,h⟩ | ⟨msg,hloop,rfl⟩
          · obtain ⟨rfl,rfl⟩ := ok_pair h
            exact .inr ⟨updated,_,hupdate,hloop,.inl ⟨rfl,rfl⟩⟩
          · exact .inr ⟨updated,_,hupdate,hloop,.inr ⟨msg,rfl,rfl⟩⟩
      · exact .inl rfl
    · exact .inl rfl
  · obtain ⟨-,-,hbad,-⟩ := revalidate_inv hrevalidate
    cases hbad

end PoolCalls

end Manager

end QdayNode
