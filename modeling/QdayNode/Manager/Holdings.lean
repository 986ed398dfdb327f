import QdayNode.Manager.Branches

/-!
# What the store holds of the branches

A block that has been validated is stored with its supplement, over a branch all of
whose blocks have been validated, and with the state that the branch leads to; pruning
takes the body and the supplement away and leaves the state.  A block that has only been
taken in has neither been validated nor does its state say anything but its index.
-/
namespace QdayNode
open Ancestry ByteString

variable {c : Crypto} {m : QdayManifest} {S : Set Bytes} {log more : List Ingestion} {bl pre rest : List Block} {b : Block}
  {ch ch' : Chain} {st st' : Store} {id : BlockID}

section Tips

def lastBlock (m : QdayManifest) (bl : List Block) : Block := bl.getLast?.getD m.genesis

/-- The supplement with which a validated block is stored. -/
def supplementOf (bl : List Block) : V1BlockSupplement := if bl = [] then { transactions := [{}] } else {}

@[simp] theorem lastBlock_nil : lastBlock m [] = m.genesis := rfl

@[simp] theorem lastBlock_snoc : lastBlock m (bl ++ [b]) = b := by simp [lastBlock]

@[simp] theorem supplementOf_snoc : supplementOf (bl ++ [b]) = {} := by simp [supplementOf]

namespace Store

/-- The store has the state after a branch, and the last block with its supplement unless the block was pruned. -/
structure HasTip (c : Crypto) (m : QdayManifest) (st : Store) (bl : List Block) (ch : Chain) : Prop where
  state : st.state ch.state.index.id = some ch.state
  block : ∃ sb, st.stored ch.state.index.id = some sb ∧ sb.header = (lastBlock m bl).header c ∧
    (sb.block = none ∨ sb.block = some (lastBlock m bl) ∧ sb.supplement = some (supplementOf bl))

def Held (c : Crypto) (m : QdayManifest) (st : Store) (bl : List Block) : Prop :=
  ∀ pre ch, pre <+: bl → runChain c noTimestamp m pre = .ok ch → st.HasTip c m pre ch

/-- The block has been validated: it has its supplement, or it was pruned. -/
def Validated (st : Store) (id : BlockID) : Prop :=
  ∃ sb, st.stored id = some sb ∧ (sb.block = none ∨ sb.supplement.isSome = true)

/-- What the one store has of a branch, the other one has too. -/
def Keeps (c : Crypto) (m : QdayManifest) (log : List Ingestion) (st st' : Store) : Prop :=
  ∀ bl ch, Branch c m log bl ch → st.HasTip c m bl ch → st'.HasTip c m bl ch

theorem HasTip.validated (h : st.HasTip c m bl ch) : st.Validated ch.state.index.id := by
  obtain ⟨sb,hsb,-,hblock⟩ := h.block
  refine ⟨sb,hsb,?_⟩
  rcases hblock with hnone | ⟨-,hsupplement⟩
  · exact .inl hnone
  · exact .inr (by rw [hsupplement]; rfl)

theorem HasTip.header (h : st.HasTip c m bl ch) : st.header ch.state.index.id = some ((lastBlock m bl).header c) := by
  obtain ⟨sb,hsb,hheader,-⟩ := h.block
  rw [Store.header,hsb,Option.map_some,hheader]

theorem HasTip.body (h : st.HasTip c m bl ch) :
    st.block ch.state.index.id = none ∨ st.block ch.state.index.id = some (lastBlock m bl, some (supplementOf bl)) := by
  obtain ⟨sb,hsb,-,hblock⟩ := h.block
  rw [Store.block,hsb,Option.bind_some]
  rcases hblock with hnone | ⟨hsome,hsupplement⟩
  · exact .inl (by rw [hnone]; rfl)
  · exact .inr (by rw [hsome,hsupplement]; rfl)

theorem Held.tip (h : st.Held c m bl) (hrun : runChain c noTimestamp m bl = .ok ch) : st.HasTip c m bl ch :=
  h bl ch (List.prefix_refl bl) hrun

theorem Held.of_prefix (h : st.Held c m bl) (hpre : pre <+: bl) : st.Held c m pre :=
  fun pre' ch hpre' hrun => h pre' ch (hpre'.trans hpre) hrun

theorem Held.snoc (h : st.Held c m bl) (hrun : runChain c noTimestamp m (bl ++ [b]) = .ok ch)
    (htip : st.HasTip c m (bl ++ [b]) ch) : st.Held c m (bl ++ [b]) := by
  intro pre ch' hpre hrun'
  rcases List.prefix_concat_iff.mp hpre with rfl | hpre
  · obtain rfl : ch = ch' := Except.ok.inj (hrun.symm.trans hrun')
    exact htip
  · exact h pre ch' hpre hrun'

theorem Held.keep (h : st.Held c m bl) (hbl : Branch c m log bl ch) (hkeeps : st.Keeps c m log st') :
    st'.Held c m bl := by
  intro pre ch' hpre hrun
  exact hkeeps pre ch' ⟨hrun,fun b hb => hbl.mem b (hpre.subset hb)⟩ (h pre ch' hpre hrun)

end Store

end Tips

section Links

variable (hset : Setting c m S log)
include hset

theorem Branch.index (h : Branch c m log bl ch) : ch.state.index = ⟨UInt64.ofNat bl.length, (lastBlock m bl).id c⟩ := by
  have hvalid := h.valid hset
  have hid : (lastBlock m bl).id c = ch.state.index.id := by
    have htip := hvalid.tip
    induction bl using List.reverseRecOn with
    | nil => simpa [chainHeaders,Block.id] using htip
    | append_singleton bl b _ => simpa [chainHeaders,Block.id] using htip
  rw [hid,← hvalid.height]

theorem Branch.down (h : Branch c m log bl ch) (h' : Branch c m log (bl ++ rest) ch') (hheld : st.Held c m (bl ++ rest)) :
    ∃ l, Down st.parentIndex ch'.state.index l ch.state.index ∧ l.length = rest.length := by
  induction rest using List.reverseRecOn generalizing ch' with
  | nil =>
    rw [List.append_nil] at h'
    obtain rfl := h.functional h'
    exact ⟨[],Down.refl _,rfl⟩
  | append_singleton rest b ih =>
    rw [← List.append_assoc] at h' hheld
    obtain ⟨before,hbefore,hb,hext⟩ := h'.snoc_inv
    obtain ⟨l,hl,hlen⟩ := ih hbefore (hheld.of_prefix (List.prefix_append _ _))
    refine ⟨ch'.state.index :: l,Down.step ?_ hl,by simp [hlen]⟩
    have htip := hheld.tip h'.run
    rw [Store.parentIndex,htip.header,lastBlock_snoc,Option.map_some,Option.some.injEq]
    have hparent := (block_accepted (Chain.extend_inv hext).1).parentID
    rw [hbefore.index_snoc hset hext]
    change (⟨before.state.index.height + 1 - 1,b.parentID⟩ : ChainIndex) = _
    rw [hparent]
    congr 1
    grind

theorem Branch.member (h : Branch c m log bl ch) (hheld : st.Held c m bl) :
    st.Member (m.genesis.id c) ch.state.index := by
  obtain ⟨ch₀,hchain,-⟩ := Outcome.bind_eq_ok.mp h.run
  have hgenesis : Branch c m log [] ch₀ := Branch.genesis hchain
  obtain ⟨l,hl,hlen⟩ := hgenesis.down hset (show Branch c m log ([] ++ bl) ch from h) hheld
  rw [hgenesis.index hset] at hl
  exact ⟨l,hl,by rw [hlen,h.height hset]⟩

end Links

/-- What holds of the store of a manager that has taken the log in. -/
structure Store.Sound (c : Crypto) (m : QdayManifest) (log : List Ingestion) (st : Store) : Prop where
  start : ∃ ch, m.chain c = .ok ch
  root : ∀ s, st.state default = some s → s.childHeight = 0
  tree : st.HeaderTree (m.genesis.id c)
  short : ∀ i, st.Member (m.genesis.id c) i → i.height.toNat ≤ log.length
  pending : ∀ id sb, st.stored id = some sb → ¬ st.Validated id →
    ∃ b ∈ taken log, b.id c = id ∧ sb.header = b.header c ∧ sb.block = some b
  states : ∀ id s, st.state id = some s → id ≠ default → s.index.id = id ∧ st.Member (m.genesis.id c) s.index
  validated : ∀ id, st.Validated id → ∃ bl ch, Branch c m log bl ch ∧ ch.state.index.id = id ∧ st.Held c m bl

namespace Store.Sound

section Headers

variable (hset : Setting c m S (log ++ more))
include hset

theorem header_known (h : st.Sound c m log) {bh : BlockHeader} (hbh : st.header id = some bh) :
    (id = m.genesis.id c ∧ bh = m.genesis.header c) ∨ ∃ b ∈ taken log, b.id c = id ∧ bh = b.header c := by
  obtain ⟨sb,hsb,rfl⟩ := Option.map_eq_some_iff.mp hbh
  by_cases hvalid : st.Validated id
  · obtain ⟨bl,ch,hbl,rfl,hheld⟩ := h.validated id hvalid
    have htip := hheld.tip hbl.run
    rw [htip.header] at hbh
    rw [← Option.some.inj hbh,hbl.index hset.of_append]
    cases bl using List.reverseRecOn with
    | nil => exact .inl ⟨rfl,rfl⟩
    | append_singleton bl b _ =>
      rw [lastBlock_snoc]
      exact .inr ⟨b,hbl.mem b (by simp),rfl,rfl⟩
  · obtain ⟨b,hb,hid,hheader,-⟩ := h.pending id sb hsb hvalid
    exact .inr ⟨b,hb,hid,hheader⟩

theorem genesis_ne (h : st.Sound c m log) (hb : b ∈ taken (log ++ more)) (hparent : b.parentID ≠ default) :
    b.id c ≠ m.genesis.id c := by
  intro hid
  obtain ⟨ch,hchain⟩ := h.start
  have hheader := header_eq_of_id hset.ideal.inj (hset.headers b hb) (Branch.genesis_header_mem hset hchain)
    (Block.timestamp_of_stored (taken_stored hb)) hset.whole hid
  exact hparent (congrArg BlockHeader.parentID hheader)

theorem tree_put (h : st.Sound c m log) {parent : ChainIndex} (s : State) (bs : Option V1BlockSupplement)
    (hb : b.stored ∈ taken (log ++ more)) (hparent : st.Member (m.genesis.id c) parent) (hlink : b.parentID = parent.id)
    (hroom : parent.height.toNat + 1 ≤ (log ++ more).length) :
    ((st.addState s).addBlock c b bs).HeaderTree (m.genesis.id c) ∧
      ((st.addState s).addBlock c b bs).Member (m.genesis.id c) ⟨parent.height + 1, b.id c⟩ ∧
      (∀ i, st.Member (m.genesis.id c) i → ((st.addState s).addBlock c b bs).Member (m.genesis.id c) i) ∧
      ∀ i, ((st.addState s).addBlock c b bs).Member (m.genesis.id c) i → i.height.toNat ≤ (log ++ more).length := by
  have hcount := hset.count
  have hparentNe : b.parentID ≠ default := hlink ▸ h.tree.id_ne_default hparent
  have hne : b.id c ≠ m.genesis.id c := h.genesis_ne (b := b.stored) hset hb hparentNe
  have hid : b.id c ≠ default := Branch.block_ne_default (b := b.stored) hset hb
  have hadd : _ ∧ _ := h.tree.add (show ((st.addState s).addBlock c b bs).bestIndex 0 = st.bestIndex 0 from rfl) ?_ ?_
    hid hne hparent (show (b.header c).stored.parentID = _ from hlink) (by omega)
  · obtain ⟨htree,hnew,hmono,hback⟩ := hadd
    refine ⟨htree,hnew,hmono,fun i hi => ?_⟩
    rcases hback i hi with hold | rfl
    · have hshort := h.short i hold
      rw [List.length_append]
      omega
    · rw [UInt64.toNat_add,UInt64.toNat_one,Nat.mod_eq_of_lt (by omega)]
      exact hroom
  · intro i
    rw [Store.header,Store.stored_addBlock]
    split_ifs
    · rfl
    · rfl
  · intro bh hbh
    rcases h.header_known hset hbh with ⟨hgenesis,-⟩ | ⟨b',hb',hid,rfl⟩
    · exact absurd hgenesis hne
    · exact header_eq_of_id hset.ideal.inj (hset.headers b' (mem_taken_append hb')) (hset.headers b.stored hb)
        (Block.timestamp_of_stored (taken_stored hb')) (Block.timestamp_of_stored (taken_stored hb)) hid

end Headers

section Lookups

variable {s : State} {bs : Option V1BlockSupplement}

theorem states_put (h : st.Sound c m log)
    (hnew : ((st.addState s).addBlock c b bs).Member (m.genesis.id c) s.index)
    (hmono : ∀ i, st.Member (m.genesis.id c) i → ((st.addState s).addBlock c b bs).Member (m.genesis.id c) i) :
    ∀ id s', ((st.addState s).addBlock c b bs).state id = some s' → id ≠ default →
      s'.index.id = id ∧ ((st.addState s).addBlock c b bs).Member (m.genesis.id c) s'.index := by
  intro id s' hs' hne
  rw [Store.state_addBlock,Store.state_addState] at hs'
  split_ifs at hs' with hid
  · obtain rfl := Option.some.inj hs'
    exact ⟨hid.symm,hnew⟩
  · obtain ⟨hs,hmember⟩ := h.states id s' hs' hne
    exact ⟨hs,hmono _ hmember⟩

theorem root_put (h : st.Sound c m log) (hne : s.index.id ≠ default) :
    ∀ s', ((st.addState s).addBlock c b bs).state default = some s' → s'.childHeight = 0 := by
  intro s' hs'
  rw [Store.state_addBlock,Store.state_addState_of_ne hne.symm] at hs'
  exact h.root s' hs'

theorem hasTip_put (hindex : s.index.id = b.id c) (hne : ch.state.index.id ≠ b.id c) (h : st.HasTip c m bl ch) :
    ((st.addState s).addBlock c b bs).HasTip c m bl ch := by
  refine ⟨?_,?_⟩
  · rw [Store.state_addBlock,Store.state_addState_of_ne (by rwa [hindex]),h.state]
  · rw [Store.stored_addBlock_of_ne hne,Store.stored_addState]
    exact h.block

end Lookups

/-- A block that has not been validated is taken in over a member of the tree. -/
theorem ingest {i : Ingestion} {cs next : State} (hset : Setting c m S (log ++ [i])) (h : st.Sound c m log)
    (hparent : st.Member (m.genesis.id c) cs.index) (hlink : i.block.parentID = cs.index.id)
    (hnext : next.index = ⟨cs.childHeight, i.block.id c⟩) (hnew : ¬ st.Validated (i.block.id c)) :
    ((st.addState next).addBlock c i.block none).Sound c m (log ++ [i]) ∧
      ((st.addState next).addBlock c i.block none).Member (m.genesis.id c) next.index ∧
      st.Keeps c m (log ++ [i]) ((st.addState next).addBlock c i.block none) := by
  have hb : i.block.stored ∈ taken (log ++ [i]) := by simp [taken]
  have hshort := h.short cs.index hparent
  obtain ⟨htree,hmember,hmono,hheights⟩ := h.tree_put hset next none hb hparent hlink (by simpa using hshort)
  have hindex : next.index.id = i.block.id c := congrArg ChainIndex.id hnext
  have hnextMember : ((st.addState next).addBlock c i.block none).Member (m.genesis.id c) next.index := by
    rw [hnext]
    exact hmember
  have hkeeps : st.Keeps c m (log ++ [i]) ((st.addState next).addBlock c i.block none) := by
    intro bl ch _ htip
    refine hasTip_put hindex ?_ htip
    rintro heq
    exact hnew (heq ▸ htip.validated)
  have hvalidated : ∀ id, ((st.addState next).addBlock c i.block none).Validated id → st.Validated id := by
    rintro id ⟨sb,hsb,hvalid⟩
    rw [Store.stored_addBlock] at hsb
    split_ifs at hsb with hid
    · obtain rfl := Option.some.inj hsb
      rcases hvalid with hvalid | hvalid <;> cases hvalid
    · exact ⟨sb,hsb,hvalid⟩
  refine ⟨⟨h.start,h.root_put ?_,htree,hheights,?_,h.states_put hnextMember hmono,?_⟩,hnextMember,hkeeps⟩
  · rw [hindex]
    exact Branch.block_ne_default (b := i.block.stored) hset hb
  · intro id sb hsb hnot
    rw [Store.stored_addBlock] at hsb
    split_ifs at hsb with hid
    · obtain rfl := Option.some.inj hsb
      exact ⟨i.block.stored,hb,hid.symm,rfl,rfl⟩
    · have hbefore : ¬ st.Validated id := by
        rintro ⟨sb',hsb',hvalid⟩
        refine hnot ⟨sb',?_,hvalid⟩
        rw [Store.stored_addBlock_of_ne hid]
        exact hsb'
      obtain ⟨b,hb,hid,hheader,hblock⟩ := h.pending id sb hsb hbefore
      exact ⟨b,mem_taken_append hb,hid,hheader,hblock⟩
  · intro id hvalid
    obtain ⟨bl,ch,hbl,hid,hheld⟩ := h.validated id (hvalidated id hvalid)
    exact ⟨bl,ch,hbl.append,hid,hheld.keep hbl.append hkeeps⟩

/-- A block that extends a branch of the store is stored with its supplement and its state. -/
theorem validate (hset : Setting c m S (log ++ more)) (h : st.Sound c m log) (hbl : Branch c m log bl ch)
    (hheld : st.Held c m bl) (hb : b ∈ taken (log ++ more)) (hext : ch.extend c noTimestamp b = .ok ch')
    (hroom : bl.length + 1 ≤ (log ++ more).length) :
    ((st.addState ch'.state).addBlock c b (some {})).Sound c m (log ++ more) ∧
      st.Keeps c m (log ++ more) ((st.addState ch'.state).addBlock c b (some {})) ∧
      ((st.addState ch'.state).addBlock c b (some {})).Held c m (bl ++ [b]) := by
  have hbranch : Branch c m (log ++ more) (bl ++ [b]) ch' := hbl.append.snoc hb hext
  have hlink := (block_accepted (Chain.extend_inv hext).1).parentID
  have hindex : ch'.state.index = ⟨ch.state.childHeight,b.id c⟩ := hbl.append.index_snoc hset hext
  have hid : ch'.state.index.id = b.id c := congrArg ChainIndex.id hindex
  have hstored := taken_stored hb
  have hheight := hbl.append.height hset
  obtain ⟨htree,hmember,hmono,hheights⟩ := h.tree_put hset ch'.state (some {}) (by rwa [hstored])
    (hbl.member hset.of_append hheld) hlink (by omega)
  have hnewMember : ((st.addState ch'.state).addBlock c b (some {})).Member (m.genesis.id c) ch'.state.index := by
    rw [hindex]
    exact hmember
  have htip : ((st.addState ch'.state).addBlock c b (some {})).HasTip c m (bl ++ [b]) ch' := by
    refine ⟨?_,⟨(b.header c).stored,some b.stored,some {}⟩,?_,?_,.inr ⟨?_,?_⟩⟩
    · rw [Store.state_addBlock,Store.state_addState_self,hbranch.state_stored hset]
    · rw [hid,Store.stored_addBlock_self]
    · rw [lastBlock_snoc,← Block.stored_header,hstored]
    · rw [lastBlock_snoc,hstored]
    · rw [supplementOf_snoc]
  have hkeeps : st.Keeps c m (log ++ more) ((st.addState ch'.state).addBlock c b (some {})) := by
    intro bl₀ ch₀ hbl₀ htip₀
    by_cases heq : ch₀.state.index.id = b.id c
    · obtain ⟨rfl,rfl⟩ := hbl₀.unique hset hbranch (heq.trans hid.symm)
      exact htip
    · exact hasTip_put hid heq htip₀
  have hnewHeld := (hheld.keep hbl.append hkeeps).snoc hbranch.run htip
  have hback : ∀ id, id ≠ b.id c → (((st.addState ch'.state).addBlock c b (some {})).Validated id ↔ st.Validated id) := by
    intro id hne
    simp only [Store.Validated,Store.stored_addBlock_of_ne hne,Store.stored_addState]
  refine ⟨⟨h.start,h.root_put ?_,htree,hheights,?_,h.states_put hnewMember hmono,?_⟩,hkeeps,hnewHeld⟩
  · exact hbranch.id_ne_default hset
  · intro id sb hsb hnot
    have hne : id ≠ b.id c := by
      rintro rfl
      exact hnot (hid ▸ htip.validated)
    rw [Store.stored_addBlock_of_ne hne] at hsb
    obtain ⟨b',hb',hid',hheader,hblock⟩ := h.pending id sb hsb (mt (hback id hne).mpr hnot)
    exact ⟨b',mem_taken_append hb',hid',hheader,hblock⟩
  · intro id hvalid
    by_cases hne : id = b.id c
    · subst hne
      exact ⟨bl ++ [b],ch',hbranch,hid,hnewHeld⟩
    · obtain ⟨bl₀,ch₀,hbl₀,hid₀,hheld₀⟩ := h.validated id ((hback id hne).mp hvalid)
      exact ⟨bl₀,ch₀,hbl₀.append,hid₀,hheld₀.keep hbl₀.append hkeeps⟩

end Store.Sound

theorem Store.Held.setBest (h : st.Held c m bl) (best : AList fun _ : UInt64 => BlockID) (height : UInt64) :
    { st with best, height }.Held c m bl := by
  intro pre ch hpre hrun
  have htip := h pre ch hpre hrun
  exact ⟨htip.state,htip.block⟩

namespace Store.Sound

theorem setBest (h : st.Sound c m log) {best : AList fun _ : UInt64 => BlockID} (height : UInt64)
    (hbest : best.lookup 0 = some (m.genesis.id c)) : { st with best, height }.Sound c m log where
  start := h.start
  root := h.root
  tree := ⟨h.tree.root,h.tree.below,by rw [Store.bestIndex,hbest]; rfl,h.tree.rooted⟩
  short := h.short
  pending := h.pending
  states := h.states
  validated id hid := by
    obtain ⟨bl,ch,hbl,hid',hheld⟩ := h.validated id hid
    exact ⟨bl,ch,hbl,hid',hheld.setBest best height⟩

/-- A validated block loses its body and its supplement. -/
theorem prune (hset : Setting c m S log) (h : st.Sound c m log) (hvalid : st.Validated id) :
    (st.pruneBlock c id).Sound c m log ∧ st.Keeps c m log (st.pruneBlock c id) := by
  obtain ⟨bl,ch,hbl,rfl,hheld⟩ := h.validated id hvalid
  have htip := hheld.tip hbl.run
  have hid : ((lastBlock m bl).header c).id c = ch.state.index.id := by
    rw [hbl.index hset]
    rfl
  have hprune : st.pruneBlock c ch.state.index.id = { st with
      blocks := st.blocks.insert ch.state.index.id ⟨(lastBlock m bl).header c,none,none⟩ } := by
    rw [Store.pruneBlock,htip.header]
    simp only [hid]
  rw [hprune]
  set st' : Store := { st with blocks := st.blocks.insert ch.state.index.id ⟨(lastBlock m bl).header c,none,none⟩ } with hst'
  have hself : st'.stored ch.state.index.id = some ⟨(lastBlock m bl).header c,none,none⟩ := AList.lookup_insert _
  have hother : ∀ id, id ≠ ch.state.index.id → st'.stored id = st.stored id := fun id hne => AList.lookup_insert_ne hne
  have hheader : st'.header = st.header := by
    funext id
    by_cases hid : id = ch.state.index.id
    · rw [hid,htip.header,Store.header,hself,Option.map_some]
    · rw [Store.header,hother id hid,Store.header]
  have hparent : st'.parentIndex = st.parentIndex := by
    funext i
    rw [Store.parentIndex,hheader,Store.parentIndex]
  have hmember : ∀ i, st'.Member (m.genesis.id c) i ↔ st.Member (m.genesis.id c) i := by
    intro i
    rw [Store.Member,hparent,Store.Member]
  have hkeeps : st.Keeps c m log st' := by
    intro bl₀ ch₀ hbl₀ htip₀
    refine ⟨htip₀.state,?_⟩
    by_cases heq : ch₀.state.index.id = ch.state.index.id
    · obtain ⟨rfl,rfl⟩ := hbl₀.unique hset hbl heq
      exact ⟨_,hself,rfl,.inl rfl⟩
    · rw [hother _ heq]
      exact htip₀.block
  have hvalidated : ∀ id, st'.Validated id ↔ st.Validated id := by
    intro id
    by_cases heq : id = ch.state.index.id
    · subst heq
      exact ⟨fun _ => hvalid,fun _ => ⟨_,hself,.inl rfl⟩⟩
    · simp only [Store.Validated,hother id heq]
  refine ⟨⟨h.start,h.root,⟨?_,?_,h.tree.best,?_⟩,?_,?_,?_,?_⟩,hkeeps⟩
  · rw [hheader]
    exact h.tree.root
  · rw [hheader]
    exact h.tree.below
  · intro id bh hbh
    rw [hheader] at hbh
    obtain ⟨height,hi⟩ := h.tree.rooted id bh hbh
    exact ⟨height,(hmember _).mpr hi⟩
  · intro i hi
    exact h.short i ((hmember i).mp hi)
  · intro id sb hsb hnot
    rw [hvalidated] at hnot
    have hne : id ≠ ch.state.index.id := fun heq => hnot (heq ▸ hvalid)
    rw [hother id hne] at hsb
    exact h.pending id sb hsb hnot
  · intro id s hs hne
    obtain ⟨hindex,hi⟩ := h.states id s hs hne
    exact ⟨hindex,(hmember _).mpr hi⟩
  · intro id hid
    obtain ⟨bl₀,ch₀,hbl₀,hid₀,hheld₀⟩ := h.validated id ((hvalidated id).mp hid)
    exact ⟨bl₀,ch₀,hbl₀,hid₀,hheld₀.keep hbl₀ hkeeps⟩

end Store.Sound

end QdayNode
