import QdayNode.Manager.Holdings
import QdayNode.Manager.Steps

/-!
# How the tip follows a branch

The tip of the manager lies at the end of a branch that the store holds.  `revertTip`
takes the last block off, `applyTip` puts one on; a reorganization is a sequence of the
two along the links of the store, and one that fails half way leaves the tip on a branch
from which the way back is open: every block that was taken off or put on has its body
and its supplement.
-/
namespace QdayNode
open Ancestry ByteString Procedure Outcome

variable {c : Crypto} {log : List Ingestion} {st : Store} {l : List ChainIndex} {target : ChainIndex}

variable {cfg : Config} {m : QdayManifest} {S : Set Bytes} {M M' : Manager} {bl rest : List Block} {b : Block} {ch ch' : Chain}
  {index : ChainIndex} {r : Except String Unit}

section Tip

def branchIDs (c : Crypto) (m : QdayManifest) (bl : List Block) : List BlockID := m.genesis.id c :: bl.map (Block.id c)

/-- No order of expiring contracts stands in the way of the block. -/
def Ordered (cfg : Config) (b : Block) : Prop := Manager.overwriteExpirations cfg b {} = .ok {}

/-- The tip of the manager is the end of a branch. -/
structure Manager.At (cfg : Config) (m : QdayManifest) (M : Manager) (bl : List Block) (ch : Chain) : Prop where
  branch : Branch cfg.crypto m M.ingested bl ch
  sound : M.store.Sound cfg.crypto m M.ingested
  held : M.store.Held cfg.crypto m bl
  tip : M.tipState = ch.state
  height : M.store.height = ch.state.index.height
  best : ∀ h, M.store.best.lookup h = (branchIDs cfg.crypto m bl)[h.toNat]?
  ordered : ∀ b ∈ bl, Ordered cfg b

/-- What a reorganization leaves of a store. -/
structure Store.Grows (c : Crypto) (m : QdayManifest) (log : List Ingestion) (st st' : Store) : Prop where
  header : st'.header = st.header
  keeps : st.Keeps c m log st'
  bodies : ∀ id, (st.block id).isSome = true → (st'.block id).isSome = true

namespace Store.Grows

variable {st₁ st₂ : Store} {i : ChainIndex} {z : ChainIndex}

theorem refl (st : Store) : st.Grows c m log st := ⟨rfl,fun _ _ _ h => h,fun _ h => h⟩

theorem trans (h : st.Grows c m log st₁) (h' : st₁.Grows c m log st₂) : st.Grows c m log st₂ :=
  ⟨h'.header.trans h.header,fun bl ch hbl htip => h'.keeps bl ch hbl (h.keeps bl ch hbl htip),
    fun id hid => h'.bodies id (h.bodies id hid)⟩

theorem setBest (st : Store) (best : AList fun _ : UInt64 => BlockID) (height : UInt64) :
    st.Grows c m log { st with best, height } :=
  ⟨rfl,fun _ _ _ h => ⟨h.state,h.block⟩,fun _ h => h⟩

theorem parentIndex (h : st.Grows c m log st₁) : st₁.parentIndex = st.parentIndex := by
  funext i
  rw [Store.parentIndex,h.header,Store.parentIndex]

end Store.Grows

variable {bs : V1BlockSupplement} {cs : State} {cau : ApplyUpdate} {t : Time}

theorem overwriteExpirations_eq {bs' : V1BlockSupplement} (hempty : bs.expiringFileContracts = [])
    (h : Manager.overwriteExpirations cfg b bs = .ok bs') : bs' = bs := by
  unfold Manager.overwriteExpirations at h
  split at h
  · exact (Except.ok.inj h).symm
  · rename_i order _
    rw [bind_unit_eq_ok] at h
    simp only [rejectIf_eq_ok,bind_eq_ok,pure_eq_ok,hempty] at h
    obtain ⟨hlen,fces,hfces,rfl⟩ := h
    obtain rfl : order = [] := List.length_eq_zero_iff.mp (not_not.mp hlen).symm
    obtain rfl : [] = fces := Except.ok.inj hfces
    rw [← hempty]

theorem branchIDs_snoc (c : Crypto) (m : QdayManifest) (bl : List Block) (b : Block) :
    branchIDs c m (bl ++ [b]) = branchIDs c m bl ++ [b.id c] := by simp [branchIDs]

@[simp] theorem branchIDs_length (c : Crypto) (m : QdayManifest) (bl : List Block) :
    (branchIDs c m bl).length = bl.length + 1 := by simp [branchIDs]

theorem best_snoc (hroom : bl.length < 2^62) (height : UInt64) (hheight : height = UInt64.ofNat (bl.length + 1))
    {best : AList fun _ : UInt64 => BlockID} :
    ((∀ h, best.lookup h = (branchIDs cfg.crypto m bl)[h.toNat]?) → ∀ h, (best.insert height (b.id cfg.crypto)).lookup h =
      (branchIDs cfg.crypto m (bl ++ [b]))[h.toNat]?) ∧
    ((∀ h, best.lookup h = (branchIDs cfg.crypto m (bl ++ [b]))[h.toNat]?) → ∀ h, (best.erase height).lookup h =
      (branchIDs cfg.crypto m bl)[h.toNat]?) := by
  have hword : height.toNat = bl.length + 1 := by
    rw [hheight]
    exact Word64.toNat_ofNat_of_lt (by omega)
  refine ⟨fun hbest h => ?_,fun hbest h => ?_⟩
  · rw [branchIDs_snoc,List.getElem?_append]
    by_cases heq : h = height
    · subst heq
      rw [AList.lookup_insert,if_neg (by simp [hword])]
      simp [hword]
    · have hne : h.toNat ≠ bl.length + 1 := fun hh => heq (UInt64.toNat_inj.mp (hh.trans hword.symm))
      rw [AList.lookup_insert_ne heq,hbest,branchIDs_length]
      split_ifs with hlt
      · rfl
      · rw [List.getElem?_eq_none (by simp; omega),List.getElem?_eq_none (by simp; omega)]
  · by_cases heq : h = height
    · subst heq
      rw [AList.lookup_erase,List.getElem?_eq_none (by simp [hword])]
    · have hne : h.toNat ≠ bl.length + 1 := fun hh => heq (UInt64.toNat_inj.mp (hh.trans hword.symm))
      rw [AList.lookup_erase_ne heq,hbest,branchIDs_snoc,List.getElem?_append]
      split_ifs with hlt
      · rfl
      · rw [branchIDs_length] at hlt
        rw [List.getElem?_eq_none (by simp; omega),List.getElem?_eq_none (by simp; omega)]

variable (hset : Setting cfg.crypto m S M.ingested)
include hset

theorem Manager.At.room (h : M.At cfg m bl ch) : bl.length < 2^62 := by
  have hmember := h.branch.member hset h.held
  have hshort := h.sound.short _ hmember
  have hcount := hset.count
  rw [h.branch.height hset] at hshort
  omega

/-- `revertTip` takes the last block off the branch, unless its body is missing. -/
theorem revertTip_at (h : M.At cfg m (bl ++ [b]) ch') (hrun : exec (Manager.revertTip cfg) M = .ok (r, M')) :
    ((∃ msg, r = .error msg) ∧ M' = M ∧ M.store.block (b.id cfg.crypto) = none) ∨
      (r = .ok () ∧ ∃ ch, M'.At cfg m bl ch ∧ M'.ingested = M.ingested ∧
        M.store.Grows cfg.crypto m M.ingested M'.store ∧ (M.store.block (b.id cfg.crypto)).isSome = true) := by
  obtain ⟨ch,hch,hb,hext⟩ := h.branch.snoc_inv
  have htip' := h.held.tip h.branch.run
  have hheld := h.held.of_prefix (List.prefix_append bl [b])
  have htip := hheld.tip hch.run
  have hid : ch'.state.index.id = b.id cfg.crypto := congrArg ChainIndex.id (hch.index_snoc hset hext)
  have hparent := (block_accepted (Chain.extend_inv hext).1).parentID
  have hfound : Manager.blockAndParent M.store M.tipState.index.id =
      (M.store.block (b.id cfg.crypto)).map fun p => (p.1, p.2, ch.state) := by
    rw [h.tip,Manager.blockAndParent,hid]
    rcases htip'.body with hnone | hsome
    · rw [hid] at hnone
      rw [hnone]
      rfl
    · rw [hid,lastBlock_snoc] at hsome
      rw [hsome,Option.map_some]
      change (M.store.state b.parentID).bind _ = _
      rw [hparent,htip.state]
      rfl
  rcases Manager.revertTip_inv hrun with ⟨hnone,hr,rfl⟩ | ⟨b',bs,cs,cru,pool,hsome,-,-,rfl,rfl⟩
  · rw [hfound,Option.map_eq_none_iff] at hnone
    exact .inl ⟨hr,rfl,hnone⟩
  · rw [hfound,Option.map_eq_some_iff] at hsome
    obtain ⟨p,hp,hpair⟩ := hsome
    obtain rfl : ch.state = cs := (Prod.mk.inj (Prod.mk.inj hpair).2).2
    have hroom := h.room hset
    have hheight : ch.state.index.height + 1 = UInt64.ofNat (bl.length + 1) := (hch.valid hset).childHeight.1
    have hbest := (best_snoc (b := b) (by simp at hroom; omega) _ hheight).2 h.best
    refine .inr ⟨rfl,ch,⟨hch,?_,hheld.setBest _ _,rfl,rfl,hbest,?_⟩,rfl,Store.Grows.setBest _ _ _,by rw [hp]; rfl⟩
    · refine h.sound.setBest _ ?_
      rw [hbest]
      rfl
    · intro b' hb'
      exact h.ordered b' (List.mem_append_left _ hb')

omit hset in
theorem validated_iff_of_block {id : BlockID} {bs : Option V1BlockSupplement} (h : st.block id = some (b, bs)) :
    ∃ sb, st.stored id = some sb ∧ sb.block = some b ∧ (st.Validated id ↔ bs.isSome = true) := by
  obtain ⟨sb,hsb,hpair⟩ := Option.bind_eq_some_iff.mp h
  obtain ⟨b',hb',hpair⟩ := Option.map_eq_some_iff.mp hpair
  obtain ⟨rfl,rfl⟩ := Prod.mk.inj hpair
  refine ⟨sb,hsb,hb',?_⟩
  constructor
  · rintro ⟨sb',hsb',hvalid⟩
    obtain rfl := Option.some.inj (hsb.symm.trans hsb')
    rcases hvalid with hnone | hsome
    · rw [hb'] at hnone
      cases hnone
    · exact hsome
  · intro hsome
    exact ⟨sb,hsb,.inr hsome⟩

/-- The branch goes on with a block of the store. -/
structure Extends (cfg : Config) (m : QdayManifest) (M : Manager) (bl : List Block) (ch : Chain) (b : Block) (ch' : Chain)
    (store : Store) : Prop where
  mem : b ∈ taken M.ingested
  extend : ch.extend cfg.crypto noTimestamp b = .ok ch'
  ordered : Ordered cfg b
  sound : store.Sound cfg.crypto m M.ingested
  held : store.Held cfg.crypto m (bl ++ [b])
  best : store.best = M.store.best
  grows : M.store.Grows cfg.crypto m M.ingested store
  body : (store.block (b.id cfg.crypto)).isSome = true

theorem index_of_link (h : M.At cfg m bl ch) (hlink : M.store.parentIndex index = some ch.state.index)
    (hid : b.id cfg.crypto = index.id) (hext : ch.extend cfg.crypto noTimestamp b = .ok ch') : ch'.state.index = index := by
  obtain ⟨bh,-,hindex⟩ := Option.map_eq_some_iff.mp hlink
  rw [h.branch.index_snoc hset hext,hid,State.childHeight,← hindex]
  obtain ⟨height,id⟩ := index
  congr 1
  grind

/-- A block that was only taken in extends the branch once it has been validated. -/
theorem pending_extends (h : M.At cfg m bl ch)
    (hlink : M.store.parentIndex index = some ch.state.index) (hblock : M.store.block index.id = some (b, none))
    (hbs : Manager.overwriteExpirations cfg b
      (M.store.supplementTipBlock (cfg.supplementTipTransaction M.store) b) = .ok bs)
    (hvalid : validateBlock cfg.crypto ch.state b bs = .ok ())
    (happly : applyBlock cfg.crypto ch.state b bs t = .ok (cs, cau)) :
    ∃ ch', ch'.state = cs ∧ ch'.state.index = index ∧ bs = {} ∧
      Extends cfg m M bl ch b ch' ((M.store.addState cs).addBlock cfg.crypto b (some {})) := by
  obtain ⟨sb,hsb,hbody,hpending⟩ := validated_iff_of_block hblock
  obtain ⟨b',hmem,hid,hheader,hb'⟩ := h.sound.pending index.id sb hsb (by simp [hpending])
  obtain rfl := Option.some.inj (hbody.symm.trans hb')
  have hsupply : M.store.supplementTipBlock (cfg.supplementTipTransaction M.store) b = {} := by
    unfold Store.supplementTipBlock
    rw [(block_accepted hvalid).transactions]
    split_ifs <;> rfl
  rw [hsupply] at hbs
  obtain rfl := overwriteExpirations_eq rfl hbs
  obtain ⟨ch',hext,rfl⟩ := Chain.extend_of_applied hvalid happly
  have hindex := index_of_link hset h hlink hid hext
  have hroom : bl.length + 1 ≤ M.ingested.length := by
    have hheight := h.branch.height hset
    have hshort := h.room hset
    obtain ⟨l,hl,hlen⟩ := h.branch.member hset h.held
    have hmember : M.store.Member (m.genesis.id cfg.crypto) index := by
      refine ⟨index :: l,Down.step hlink hl,?_⟩
      rw [List.length_cons,hlen,← hindex,h.branch.index_snoc hset hext,State.childHeight,UInt64.toNat_add,
        UInt64.toNat_one,Nat.mod_eq_of_lt (by omega)]
    have hle := h.sound.short index hmember
    rwa [← hindex,(h.branch.snoc hmem hext).height hset,List.length_append,List.length_singleton] at hle
  rw [← List.append_nil M.ingested] at hset
  obtain ⟨hsound,hkeeps,hheld⟩ := h.sound.validate hset h.branch h.held (by rwa [List.append_nil]) hext
    (by rwa [List.append_nil])
  rw [List.append_nil] at hsound hkeeps
  refine ⟨ch',rfl,hindex,rfl,hmem,hext,hbs,hsound,hheld,rfl,⟨?_,hkeeps,?_⟩,?_⟩
  · funext id
    rw [Store.header,Store.header,Store.stored_addBlock,Store.stored_addState]
    split_ifs with heq
    · rw [heq,hid,hsb,Option.map_some,Option.map_some,hheader,← Block.stored_header,taken_stored hmem]
    · rfl
  · intro id hid'
    rw [Store.block,Store.stored_addBlock,Store.stored_addState]
    split_ifs with heq
    · rfl
    · exact hid'
  · rw [Store.block,Store.stored_addBlock_self]
    rfl

theorem validated_extends {bs₀ : V1BlockSupplement} (h : M.At cfg m bl ch)
    (hlink : M.store.parentIndex index = some ch.state.index) (hblock : M.store.block index.id = some (b, some bs₀))
    (hparent : b.parentID = ch.state.index.id) (hbs : Manager.overwriteExpirations cfg b bs₀ = .ok bs)
    (happly : applyBlock cfg.crypto ch.state b bs t = .ok (cs, cau)) :
    ∃ ch', ch'.state = cs ∧ ch'.state.index = index ∧ Extends cfg m M bl ch b ch' M.store := by
  obtain ⟨sb,hsb,hbody,hvalidated⟩ := validated_iff_of_block hblock
  obtain ⟨bl',ch',hbl',hid,hheld⟩ := h.sound.validated index.id (hvalidated.mpr rfl)
  rcases (hheld.tip hbl'.run).body with hnone | hsome
  · rw [hid,hblock] at hnone
    cases hnone
  rw [hid,hblock] at hsome
  obtain ⟨rfl,hbs₀⟩ := Prod.mk.inj (Option.some.inj hsome)
  cases bl' using List.reverseRecOn with
  | nil =>
    rw [lastBlock_nil] at hparent
    exact absurd hparent.symm (h.branch.id_ne_default hset)
  | append_singleton bl' b =>
    rw [lastBlock_snoc] at *
    obtain rfl : bs₀ = {} := by simpa using hbs₀
    obtain rfl := overwriteExpirations_eq rfl hbs
    obtain ⟨before,hbefore,hmem,hext⟩ := hbl'.snoc_inv
    have hsame := (block_accepted (Chain.extend_inv hext).1).parentID
    obtain ⟨rfl,rfl⟩ := h.branch.unique hset hbefore (hparent.symm.trans hsame)
    obtain ⟨au,happly'⟩ := Chain.extend_applied hext t
    obtain ⟨hstate,-⟩ := Prod.mk.inj (Except.ok.inj (happly'.symm.trans happly))
    have hbid : b.id cfg.crypto = index.id := by
      rw [← hid,hbefore.index_snoc hset hext]
    refine ⟨ch',hstate,index_of_link hset h hlink hbid hext,hmem,hext,hbs,h.sound,hheld,rfl,Store.Grows.refl _,?_⟩
    rw [hbid,hblock]
    rfl

/-- `applyTip` puts the block over the tip on the branch, or changes nothing. -/
theorem applyTip_at (h : M.At cfg m bl ch) (hlink : M.store.parentIndex index = some ch.state.index)
    (hrun : exec (Manager.applyTip cfg index) M = .ok (r, M')) :
    ((∃ msg, r = .error msg) ∧ M' = M ∧ Manager.Inapplicable cfg M index) ∨
      (r = .ok () ∧ ∃ b ch', M'.At cfg m (bl ++ [b]) ch' ∧ ch'.state.index = index ∧ M'.ingested = M.ingested ∧
        M.store.Grows cfg.crypto m M.ingested M'.store ∧ (M'.store.block (b.id cfg.crypto)).isSome = true) := by
  rcases Manager.applyTip_inv hrun with ⟨hfail,hr,rfl⟩ | ⟨b,bs,cs,cau,store,pool,happ,-,rfl,rfl⟩
  · exact .inl ⟨hr,rfl,hfail⟩
  obtain ⟨t,-,happly⟩ := happ.apply
  have hparent := happ.parent
  rw [h.tip] at happly hparent
  obtain ⟨ch',rfl,hindex,hextends⟩ : ∃ ch', ch'.state = cs ∧ ch'.state.index = index ∧ Extends cfg m M bl ch b ch' store := by
    rcases happ.source with ⟨hblock,hbs,hvalid,rfl⟩ | ⟨bs₀,hblock,hbs,rfl⟩
    · rw [h.tip] at hvalid
      obtain ⟨ch',hcs,hindex,rfl,hextends⟩ := pending_extends hset h hlink hblock hbs hvalid happly
      exact ⟨ch',hcs,hindex,hextends⟩
    · exact validated_extends hset h hlink hblock hparent hbs happly
  have hbranch := h.branch.snoc hextends.mem hextends.extend
  have hroom := h.room hset
  have hheight : ch'.state.index.height = UInt64.ofNat (bl.length + 1) := by
    rw [(hbranch.valid hset).height,List.length_append,List.length_singleton]
  have hid : ch'.state.index.id = b.id cfg.crypto := congrArg ChainIndex.id (h.branch.index_snoc hset hextends.extend)
  have hbest : ∀ h, (store.best.insert ch'.state.index.height ch'.state.index.id).lookup h =
      (branchIDs cfg.crypto m (bl ++ [b]))[h.toNat]? := by
    rw [hextends.best,hid]
    exact (best_snoc hroom _ hheight).1 h.best
  refine .inr ⟨rfl,b,ch',⟨hbranch,?_,hextends.held.setBest _ _,rfl,rfl,hbest,?_⟩,hindex,rfl,
    hextends.grows.trans (Store.Grows.setBest _ _ _),hextends.body⟩
  · refine hextends.sound.setBest _ ?_
    rw [hbest]
    rfl
  · rw [List.forall_mem_append]
    exact ⟨h.ordered,by simpa using hextends.ordered⟩

end Tip

section Reorg

variable {ext keep : List Block}

def Store.Bodies (c : Crypto) (st : Store) (bl : List Block) : Prop := ∀ b ∈ bl, (st.block (b.id c)).isSome = true

theorem Store.Bodies.grow {st' : Store} (h : st.Bodies c bl)
    (hgrows : st.Grows c m log st') : st'.Bodies c bl := fun b hb => hgrows.bodies _ (h b hb)

variable (hset : Setting cfg.crypto m S M.ingested)
include hset

theorem revert_loop (h : M.At cfg m bl ch) (hlen : l.length ≤ bl.length)
    (hrun : exec (l.foldlM (fun _ _ => Manager.revertTip cfg) ()) M = .ok (r, M')) :
    ∃ keep rest ch', bl = keep ++ rest ∧ M'.At cfg m keep ch' ∧ M'.ingested = M.ingested ∧
      M.store.Grows cfg.crypto m M.ingested M'.store ∧ M'.store.Bodies cfg.crypto rest ∧
      ((r = .ok () ∧ rest.length = l.length) ∨ ((∃ msg, r = .error msg) ∧ rest.length < l.length ∧
        ∃ before b, keep = before ++ [b] ∧ M.store.block (b.id cfg.crypto) = none)) := by
  induction l generalizing M bl ch with
  | nil =>
    obtain ⟨rfl,rfl⟩ := ok_pair hrun
    exact ⟨bl,[],ch,(List.append_nil bl).symm,h,rfl,Store.Grows.refl _,by simp [Store.Bodies],.inl ⟨rfl,rfl⟩⟩
  | cons x l ih =>
    cases bl using List.reverseRecOn with
    | nil => cases hlen
    | append_singleton bl b =>
      rw [List.foldlM_cons] at hrun
      rcases exec_bind_eq_ok.mp hrun with ⟨⟨⟩,M₁,hstep,hrest⟩ | ⟨msg,hstep,rfl⟩
      · rcases revertTip_at hset h hstep with ⟨⟨msg,hbad⟩,-⟩ | ⟨-,ch₁,h₁,hlog,hgrows,hbody⟩
        · cases hbad
        have hset₁ : Setting cfg.crypto m S M₁.ingested := hlog ▸ hset
        obtain ⟨keep,rest,ch',rfl,h',hlog',hgrows',hbodies,hend⟩ := ih hset₁ h₁ (by simpa using hlen) hrest
        rw [hlog] at hgrows'
        refine ⟨keep,rest ++ [b],ch',by rw [List.append_assoc],h',hlog'.trans hlog,hgrows.trans hgrows',?_,?_⟩
        · intro b' hb'
          rcases List.mem_append.mp hb' with hb' | hb'
          · exact hbodies b' hb'
          · rw [List.mem_singleton.mp hb']
            exact (hgrows.trans hgrows').bodies _ hbody
        · rcases hend with ⟨rfl,heq⟩ | ⟨hmsg,hlt,before,b',rfl,hnone⟩
          · exact .inl ⟨rfl,by simp [heq]⟩
          · refine .inr ⟨hmsg,by simpa using hlt,before,b',rfl,?_⟩
            by_contra hsome
            have := hgrows.bodies _ (Option.isSome_iff_ne_none.mpr hsome)
            rw [hnone] at this
            cases this
      · rcases revertTip_at hset h hstep with ⟨hmsg,rfl,hnone⟩ | ⟨hbad,-⟩
        · exact ⟨bl ++ [b],[],ch,(List.append_nil _).symm,h,rfl,Store.Grows.refl _,by simp [Store.Bodies],
            .inr ⟨⟨msg,rfl⟩,by simp,bl,b,rfl,hnone⟩⟩
        · cases hbad

theorem apply_loop (h : M.At cfg m bl ch) (hdown : Down M.store.parentIndex target l ch.state.index)
    (hrun : exec (l.reverse.foldlM (fun _ index => Manager.applyTip cfg index) ()) M = .ok (r, M')) :
    ∃ ext ch', M'.At cfg m (bl ++ ext) ch' ∧ M'.ingested = M.ingested ∧ M.store.Grows cfg.crypto m M.ingested M'.store ∧
      M'.store.Bodies cfg.crypto ext ∧ ((r = .ok () ∧ ch'.state.index = target) ∨ ∃ msg, r = .error msg) := by
  induction l using List.reverseRecOn generalizing M bl ch with
  | nil =>
    obtain ⟨rfl,rfl⟩ := ok_pair hrun
    cases hdown
    exact ⟨[],ch,by rwa [List.append_nil],rfl,Store.Grows.refl _,by simp [Store.Bodies],.inl ⟨rfl,rfl⟩⟩
  | append_singleton l x ih =>
    obtain ⟨y,hl,hx⟩ := hdown.split
    cases hx with
    | step hlink hend =>
      cases hend
      rw [List.reverse_append,List.reverse_singleton,List.singleton_append,List.foldlM_cons] at hrun
      rcases exec_bind_eq_ok.mp hrun with ⟨⟨⟩,M₁,hstep,hrest⟩ | ⟨msg,hstep,rfl⟩
      · rcases applyTip_at hset h hlink hstep with ⟨⟨msg,hbad⟩,-⟩ | ⟨-,b,ch₁,h₁,rfl,hlog,hgrows,hbody⟩
        · cases hbad
        have hset₁ : Setting cfg.crypto m S M₁.ingested := hlog ▸ hset
        rw [← hgrows.parentIndex] at hl
        obtain ⟨ext,ch',h',hlog',hgrows',hbodies,hend⟩ := ih hset₁ h₁ hl hrest
        rw [hlog] at hgrows'
        refine ⟨b :: ext,ch',?_,hlog'.trans hlog,hgrows.trans hgrows',?_,hend⟩
        · rwa [List.append_assoc,List.singleton_append] at h'
        · rw [Store.Bodies,List.forall_mem_cons]
          exact ⟨hgrows'.bodies _ hbody,hbodies⟩
      · rcases applyTip_at hset h hlink hstep with ⟨-,rfl,-⟩ | ⟨hbad,-⟩
        · exact ⟨[],ch,by rwa [List.append_nil],rfl,Store.Grows.refl _,by simp [Store.Bodies],.inr ⟨msg,rfl⟩⟩
        · cases hbad

/-- A validated block that has its body and fits the order is applied without an error. -/
theorem applicable_of_held (h : M.At cfg m bl ch) (hbl : Branch cfg.crypto m M.ingested (bl ++ [b]) ch')
    (hheld : M.store.Held cfg.crypto m (bl ++ [b])) (hbody : (M.store.block (b.id cfg.crypto)).isSome = true)
    (hordered : Ordered cfg b) : ¬ Manager.Inapplicable cfg M ch'.state.index := by
  obtain ⟨before,hbefore,-,hext⟩ := hbl.snoc_inv
  obtain rfl := h.branch.functional hbefore
  have hid : ch'.state.index.id = b.id cfg.crypto := congrArg ChainIndex.id (hbefore.index_snoc hset hext)
  have hblock : M.store.block ch'.state.index.id = some (b, some {}) := by
    rcases (hheld.tip hbl.run).body with hnone | hsome
    · rw [hid] at hnone
      rw [hnone] at hbody
      cases hbody
    · rwa [lastBlock_snoc,supplementOf_snoc] at hsome
  have hparent := (block_accepted (Chain.extend_inv hext).1).parentID
  rintro (hnone | ⟨b',hpending⟩ | ⟨b',bs,hsome,hfail⟩)
  · rw [hblock] at hnone
    cases hnone
  · rw [hblock] at hpending
    cases hpending
  · rw [hblock] at hsome
    obtain ⟨rfl,hbs⟩ := Prod.mk.inj (Option.some.inj hsome)
    obtain rfl := Option.some.inj hbs
    rcases hfail with htime | ⟨msg,herror⟩
    · rw [Store.ancestorTimestamp,hparent,(h.held.tip h.branch.run).header] at htime
      split_ifs at htime
      cases htime
    · rw [hordered] at herror
      cases herror

/-- Along a branch that is held with its bodies the loop of applications ends at its end. -/
theorem held_loop (h : M.At cfg m bl ch) (hbl : Branch cfg.crypto m M.ingested (bl ++ rest) ch')
    (hheld : M.store.Held cfg.crypto m (bl ++ rest)) (hbodies : M.store.Bodies cfg.crypto rest)
    (hordered : ∀ b ∈ rest, Ordered cfg b) (hdown : Down M.store.parentIndex ch'.state.index l ch.state.index)
    (hlen : l.length = rest.length)
    (hrun : exec (l.reverse.foldlM (fun _ index => Manager.applyTip cfg index) ()) M = .ok (r, M')) :
    r = .ok () ∧ M'.At cfg m (bl ++ rest) ch' ∧ M'.ingested = M.ingested := by
  induction rest generalizing M bl ch l with
  | nil =>
    obtain rfl := List.length_eq_zero_iff.mp hlen
    obtain ⟨rfl,rfl⟩ := ok_pair hrun
    rw [List.append_nil] at hbl ⊢
    obtain rfl := h.branch.functional hbl
    exact ⟨rfl,h,rfl⟩
  | cons b rest ih =>
    cases l using List.reverseRecOn with
    | nil => cases hlen
    | append_singleton l x =>
      rw [List.length_append,List.length_singleton,List.length_cons,Nat.add_right_cancel_iff] at hlen
      obtain ⟨y,hl,hx⟩ := hdown.split
      cases hx with
      | step hlink hend =>
        cases hend
        rw [← List.singleton_append,← List.append_assoc] at hbl hheld ⊢
        obtain ⟨chb,hchb⟩ := hbl.split
        -- the links of the store lead down the branch, so the next index is that of its next block
        obtain ⟨l',hl',hlen'⟩ := hchb.down hset hbl hheld
        obtain ⟨-,rfl⟩ := hl.unique hl' (hlen.trans hlen'.symm)
        obtain ⟨hbody,hbodies⟩ := List.forall_mem_cons.mp hbodies
        obtain ⟨hbordered,hordered⟩ := List.forall_mem_cons.mp hordered
        have happ := applicable_of_held hset h hchb (hheld.of_prefix (List.prefix_append _ _)) hbody hbordered
        rw [List.reverse_append,List.reverse_singleton,List.singleton_append,List.foldlM_cons] at hrun
        rcases exec_bind_eq_ok.mp hrun with ⟨⟨⟩,M₁,hstep,hrest⟩ | ⟨msg,hstep,rfl⟩
        · rcases applyTip_at hset h hlink hstep with ⟨⟨msg,hbad⟩,-⟩ | ⟨-,b',ch₁,h₁,hindex,hlog,hgrows,-⟩
          · cases hbad
          have hset₁ : Setting cfg.crypto m S M₁.ingested := hlog ▸ hset
          have hbl₁ := h₁.branch
          rw [hlog] at hbl₁
          obtain ⟨heq,rfl⟩ := hbl₁.unique hset hchb (congrArg ChainIndex.id hindex)
          rw [heq] at h₁
          rw [← hgrows.parentIndex] at hl
          obtain ⟨hr,h',hlog'⟩ := ih hset₁ h₁ (hlog ▸ hbl) (hheld.keep hbl hgrows.keeps)
            (Store.Bodies.grow hbodies hgrows) hordered hl hlen hrest
          exact ⟨hr,h',hlog'.trans hlog⟩
        · rcases applyTip_at hset h hlink hstep with ⟨-,-,hfail⟩ | ⟨hbad,-⟩
          · exact absurd hfail happ
          · cases hbad

theorem exists_path (h : M.At cfg m bl ch)
    (htarget : M.store.Member (m.genesis.id cfg.crypto) target) :
    ∃ revert apply z, Meets M.store (m.genesis.id cfg.crypto) ch.state.index target revert apply z ∧
      revert.length ≤ bl.length ∧
      Manager.reorgPath M.store M.tipState.index target Manager.maxInt = .ok (revert, apply.reverse) := by
  have hmember := h.branch.member hset h.held
  obtain ⟨revert,apply,z,hmeets,hpath⟩ := reorgPath_members h.sound.tree hmember htarget
  have hleft := h.sound.tree.length_eq hmember hmeets.member hmeets.left
  have hright := h.sound.tree.length_eq htarget hmeets.member hmeets.right
  have hheight := h.branch.height hset
  have hshort := h.sound.short _ hmember
  have hshort' := h.sound.short _ htarget
  have hcount := hset.count
  refine ⟨revert,apply,z,hmeets,by omega,?_⟩
  rw [h.tip]
  exact hpath _ (by rw [Manager.maxInt]; omega)

omit hset in
theorem Manager.At.setPool (h : M.At cfg m bl ch) (pool : TxPool) : { M with pool }.At cfg m bl ch :=
  ⟨h.branch,h.sound,h.held,h.tip,h.height,h.best,h.ordered⟩

/-- Where a reorganization from the branch `keep ++ rest` has got to: `rest` was taken off, `ext` put on. -/
structure Halfway (cfg : Config) (m : QdayManifest) (M₀ : Manager) (keep rest ext : List Block) (M : Manager) (ch : Chain) :
    Prop where
  tip : M.At cfg m (keep ++ ext) ch
  ingested : M.ingested = M₀.ingested
  grows : M₀.store.Grows cfg.crypto m M₀.ingested M.store
  off : M.store.Bodies cfg.crypto rest
  on : M.store.Bodies cfg.crypto ext

/-- A reorganization ends at its target or half way. -/
theorem reorgTo_at (h : M.At cfg m bl ch)
    (htarget : M.store.Member (m.genesis.id cfg.crypto) target)
    (hrun : exec (Manager.reorgTo cfg target) M = .ok (r, M')) :
    ∃ keep rest ext ch', bl = keep ++ rest ∧ Halfway cfg m M keep rest ext M' ch' ∧
      ((r = .ok () ∧ ch'.state.index = target) ∨ ∃ msg, r = .error msg) := by
  obtain ⟨revert,apply,z,hmeets,hlen,hpath⟩ := exists_path hset h htarget
  obtain ⟨r₁,M₁,hrevert,hnext⟩ := Manager.reorgTo_inv hpath hrun
  obtain ⟨keep,rest,ch₁,rfl,h₁,hlog₁,hgrows₁,hoff,hend⟩ := revert_loop hset h hlen hrevert
  rcases hnext with ⟨msg,rfl,rfl,rfl⟩ | ⟨rfl,r₂,M₂,happly,hnext⟩
  · exact ⟨keep,rest,[],ch₁,rfl,⟨by rwa [List.append_nil],hlog₁,hgrows₁,hoff,by simp [Store.Bodies]⟩,.inr ⟨msg,rfl⟩⟩
  have hrestLen : rest.length = revert.length := by
    rcases hend with ⟨-,heq⟩ | ⟨⟨msg,hbad⟩,-⟩
    · exact heq
    · cases hbad
  -- the links that were followed are those of the branch
  have hset₁ : Setting cfg.crypto m S M₁.ingested := hlog₁ ▸ hset
  obtain ⟨l,hl,hlLen⟩ := (hlog₁ ▸ h₁.branch).down hset h.branch h.held
  obtain ⟨-,rfl⟩ := hl.unique hmeets.left (hlLen.trans hrestLen)
  have hright := hmeets.right
  rw [← hgrows₁.parentIndex] at hright
  obtain ⟨ext,ch₂,h₂,hlog₂,hgrows₂,hon,hend₂⟩ := apply_loop hset₁ h₁ hright happly
  rw [hlog₁] at hgrows₂
  have hhalf : Halfway cfg m M keep rest ext M₂ ch₂ :=
    ⟨h₂,hlog₂.trans hlog₁,hgrows₁.trans hgrows₂,hoff.grow hgrows₂,hon⟩
  rcases hnext with ⟨msg,rfl,rfl,rfl⟩ | ⟨rfl,rfl,rfl⟩
  · exact ⟨keep,rest,ext,ch₂,rfl,hhalf,.inr ⟨msg,rfl⟩⟩
  · refine ⟨keep,rest,ext,ch₂,rfl,⟨h₂.setPool _,hhalf.ingested,hhalf.grows,hhalf.off,hhalf.on⟩,?_⟩
    rcases hend₂ with hend₂ | ⟨msg,hbad⟩
    · exact .inl hend₂
    · cases hbad

/-- The way back from half way is open. -/
theorem reorgTo_back (h : M.At cfg m (keep ++ ext) ch) (hbl : Branch cfg.crypto m M.ingested (keep ++ rest) ch')
    (hheld : M.store.Held cfg.crypto m (keep ++ rest)) (hon : M.store.Bodies cfg.crypto ext)
    (hoff : M.store.Bodies cfg.crypto rest) (hordered : ∀ b ∈ rest, Ordered cfg b)
    (hrun : exec (Manager.reorgTo cfg ch'.state.index) M = .ok (r, M')) :
    r = .ok () ∧ M'.At cfg m (keep ++ rest) ch' ∧ M'.ingested = M.ingested := by
  obtain ⟨revert,apply,z,hmeets,hlen,hpath⟩ := exists_path hset h (hbl.member hset hheld)
  -- both branches lead down to `keep`, so they meet there or above
  obtain ⟨chk,hkeep⟩ := hbl.split
  obtain ⟨l,hl,hlLen⟩ := hkeep.down hset h.branch h.held
  obtain ⟨l',hl',hlLen'⟩ := hkeep.down hset hbl hheld
  obtain ⟨k,hk⟩ := hmeets.lowest _ _ _ (hkeep.member hset (hheld.of_prefix (List.prefix_append _ _))) hl hl'
  have hmember := h.branch.member hset h.held
  have hmember' := hbl.member hset hheld
  have hkeepMember := hkeep.member hset (hheld.of_prefix (List.prefix_append _ _))
  have hz := h.sound.tree.length_eq hmeets.member hkeepMember hk
  have hleft := h.sound.tree.length_eq hmember hmeets.member hmeets.left
  have hright := h.sound.tree.length_eq hmember' hmeets.member hmeets.right
  have hdown := h.sound.tree.length_eq hmember hkeepMember hl
  have hdown' := h.sound.tree.length_eq hmember' hkeepMember hl'
  obtain ⟨r₁,M₁,hrevert,hnext⟩ := Manager.reorgTo_inv hpath hrun
  obtain ⟨kept,gone,ch₁,hsplit,h₁,hlog₁,hgrows₁,-,hend⟩ := revert_loop hset h hlen hrevert
  have hset₁ : Setting cfg.crypto m S M₁.ingested := hlog₁ ▸ hset
  have hsuffix : gone <:+ keep ++ ext := ⟨kept,hsplit.symm⟩
  obtain ⟨rfl,hgone⟩ : r₁ = .ok () ∧ gone.length = revert.length := by
    rcases hend with hok | ⟨-,hlt,before,b,rfl,hnone⟩
    · exact hok
    · -- the block without a body is one of those that were put on
      have hlast : b :: gone <:+ keep ++ ext := ⟨before,by rw [hsplit,List.append_assoc,List.singleton_append]⟩
      have hmem := (List.suffix_of_suffix_length_le hlast (List.suffix_append keep ext)
        (by rw [List.length_cons]; omega)).subset List.mem_cons_self
      have := hon b hmem
      rw [hnone] at this
      cases this
  rcases hnext with ⟨msg,hbad,-⟩ | ⟨-,r₂,M₂,happly,hnext⟩
  · cases hbad
  have hbl₁ := h₁.branch
  rw [hlog₁] at hbl₁
  obtain ⟨l₁,hl₁,hl₁Len⟩ := hbl₁.down hset (hsplit ▸ h.branch) (hsplit ▸ h.held)
  obtain ⟨-,rfl⟩ := hl₁.unique hmeets.left (by omega)
  -- the blocks that are to be put back start where the branches meet
  obtain ⟨done,todo,rfl,htodo⟩ : ∃ done todo, rest = done ++ todo ∧ todo.length = apply.length :=
    ⟨rest.take (rest.length - apply.length),rest.drop (rest.length - apply.length),(List.take_append_drop _ _).symm,
      by rw [List.length_drop]; omega⟩
  rw [← List.append_assoc] at hbl hheld ⊢
  obtain ⟨chz,hchz⟩ := hbl.split
  obtain ⟨l₂,hl₂,hl₂Len⟩ := hchz.down hset hbl hheld
  obtain ⟨-,hz'⟩ := hl₂.unique hmeets.right (by omega)
  obtain ⟨rfl,rfl⟩ := hchz.unique hset hbl₁ (congrArg ChainIndex.id hz')
  have hdown₁ := hmeets.right
  rw [← hgrows₁.parentIndex] at hdown₁
  obtain ⟨rfl,h₂,hlog₂⟩ := held_loop hset₁ h₁ (hlog₁ ▸ hbl) (hheld.keep hbl hgrows₁.keeps)
    (fun b hb => hgrows₁.bodies _ (hoff b (List.mem_append_right _ hb)))
    (fun b hb => hordered b (List.mem_append_right _ hb)) hdown₁ htodo.symm happly
  rcases hnext with ⟨msg,hbad,-⟩ | ⟨-,rfl,rfl⟩
  · cases hbad
  · exact ⟨rfl,h₂.setPool _,hlog₂.trans hlog₁⟩

end Reorg

end QdayNode
