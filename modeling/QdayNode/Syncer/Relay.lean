import QdayNode.Gateway.Outline
import QdayNode.Manager.Pending

/-!
# Relayed block outlines

The relay handler of `syncer/peer.go` computes the ID of an outlined block from the state
that the store has for its parent.  The ID commits to the whole state, so it is right
only if that state is the one `ApplyBlock` leads to: the state of a block that was merely
taken in has the accumulator of an ancestor, which is smaller.
-/
namespace QdayNode
open ByteString Procedure Outcome

/-- What the handler of `RPCRelayV2BlockOutline` decides before it completes the block. -/
inductive RelayVerdict
  | unknownParent
  | seen
  | insufficientWork
  | sidechain
  | attaches
  deriving DecidableEq, Repr

/-- The checks of the handler of `RPCRelayV2BlockOutline`; on `insufficientWork` the peer is banned. -/
def relayVerdict (c : Crypto) (M : Manager) (ob : V2BlockOutline) : Outcome RelayVerdict :=
  match M.store.state ob.parentID with
  | none => .ok .unknownParent
  | some cs =>
    if (M.store.state (ob.id c cs)).isSome then .ok .seen
    else do
      let target ← cs.powTarget
      return if lessWork (ob.id c cs) target then .insufficientWork
        else if ob.parentID ≠ M.tipState.index.id then .sidechain
        else .attaches

section Lagging

variable {c : Crypto} {m : QdayManifest} {S : Set Bytes} {L : List Ingestion} {bl : List Block} {ch ch' : Chain} {b : Block}

theorem Branch.numLeaves (hset : Setting c m S L) (h : Branch c m L bl ch) :
    ch.state.elements.numLeaves.toNat = ch.leaves.length := by
  rw [(h.valid hset).represents.numLeaves,length_leafHashes,List.length_map]

theorem Branch.leaves_lt (h : ch.extend c noTimestamp b = .ok ch') (hroom : ch.leaves.length < 2^64 - 1) :
    ch.leaves.length < ch'.leaves.length := by
  obtain ⟨-,s,au,ms,out,-,rfl⟩ := Chain.extend_inv h
  simp only [Chain.after,storedAfter,createdLeaves,List.length_take,List.length_append,List.length_map,
    List.length_singleton]
  omega

def NoLarger (c : Crypto) (m : QdayManifest) (L : List Ingestion) (s : State) : Prop :=
  s.network = m.network ∧ ∀ bl ch, Branch c m L bl ch → ch.state.index.id = s.index.id →
    s.elements.numLeaves.toNat ≤ ch.state.elements.numLeaves.toNat

/-- Every valid chain to the block has a larger accumulator. -/
def Smaller (c : Crypto) (m : QdayManifest) (L : List Ingestion) (s : State) : Prop :=
  s.Whole ∧ s.network = m.network ∧ ∀ bl ch, Branch c m L bl ch → ch.state.index.id = s.index.id →
    s.elements.numLeaves.toNat < ch.state.elements.numLeaves.toNat

theorem State.whole_stored (s : State) : s.stored.Whole := by
  intro t ht
  obtain ⟨u,-,rfl⟩ := List.mem_map.mp ht
  exact Time.wholeSecond_truncate u

theorem carried_numLeaves (hset : Setting c m S L) (hroom : ∀ bl ch, Branch c m L bl ch → ch.leaves.length < 2^64 - 1) :
    Carried c m L (NoLarger c m L) (Smaller c m L) := by
  refine ⟨?_,?_,?_⟩
  · intro bl ch h
    refine ⟨(h.valid hset).network,fun bl' ch' h' hid => ?_⟩
    obtain ⟨-,rfl⟩ := h'.unique hset h hid
    exact le_refl _
  · rintro s ⟨-,hnetwork,hsmaller⟩
    exact ⟨hnetwork,fun bl ch h hid => (hsmaller bl ch h hid).le⟩
  · rintro cs i t next ⟨hnetwork,hlarger⟩ hi hparent hne happly
    obtain ⟨helements,hnet,-,hindex⟩ := applyHeader_frame happly
    have hid : next.index.id = i.block.stored.id c := congrArg ChainIndex.id hindex
    have hsmaller : ∀ bl ch, Branch c m L bl ch → ch.state.index.id = next.index.id →
        next.elements.numLeaves.toNat < ch.state.elements.numLeaves.toNat := by
      intro bl ch h hch
      obtain ⟨before,chb,b',rfl,hbefore,hext,-,hlink⟩ := h.last_of_id hset (b := i.block.stored)
        (List.mem_map_of_mem hi) (fun hzero => hne (hparent.symm.trans hzero)) (hch.trans hid)
      have hle := hlarger before chb hbefore (hlink.trans hparent)
      have hlt := Branch.leaves_lt hext (hroom before chb hbefore)
      rw [← hbefore.numLeaves hset,← h.numLeaves hset] at hlt
      rw [helements]
      exact hle.trans_lt hlt
    exact ⟨⟨hnet.trans hnetwork,fun bl ch h hch => (hsmaller bl ch h hch).le⟩,State.whole_stored next,
      hnet.trans hnetwork,hsmaller⟩

end Lagging

section Relay

variable {cfg : Config} {m : QdayManifest} {S : Set Bytes} {M : Manager} {extra : List Ingestion} {bl : List Block} {ch : Chain}
  {b : Block} {s : State}

def relayStrings (c : Crypto) (s s' : State) (b : Block) : List Bytes :=
  [s.encode, s'.encode, (b.header c).preimage,
    BlockHeader.preimage ⟨b.parentID, b.nonce, b.timestamp, s'.commitment c b.minerAddress [] b.v2Transactions⟩] ++
  (s.commitmentStrings c b.minerAddress [] b.v2Transactions ++ s'.commitmentStrings c b.minerAddress [] b.v2Transactions)

/-- The ID from another state is that of the block only if the states have one encoding. -/
theorem encode_of_outline_id {c : Crypto} {height : UInt64} {remove : List Hash256} (hinj : Set.InjOn c.sum256 S)
    (hvalid : validateBlock c ch.state b {} = .ok ()) (hwhole : b.timestamp.WholeSecond) (hfits : b.Fits)
    (hS : ∀ x ∈ relayStrings c ch.state s b, x ∈ S) (hid : (outlineOf c b height remove).id c s = b.id c) :
    s.encode = ch.state.encode := by
  simp only [relayStrings,List.forall_mem_append,List.forall_mem_cons] at hS
  obtain ⟨⟨htrue,hstored,hheader,hheader',-⟩,hstrings,hstrings'⟩ := hS
  rw [V2BlockOutline.id,commitment_outlineOf] at hid
  have heq := header_eq_of_id hinj hheader' hheader hwhole hwhole hid
  have hcommitment : s.commitment c b.minerAddress [] b.v2Transactions =
      ch.state.commitment c b.minerAddress [] b.v2Transactions := by
    have := congrArg BlockHeader.commitment heq
    simpa [Block.header,v2_accepted hvalid] using this
  have hcount := hfits.count
  obtain ⟨hdigest,-,-⟩ := State.commitment_injective hinj (by rw [List.length_nil]; omega) (by rw [List.length_nil]; omega)
    hstrings' hstrings hcommitment
  exact hinj hstored htrue hdigest

theorem work_accepted {c : Crypto} {bs : V1BlockSupplement} (h : validateBlock c s b bs = .ok ()) :
    ∃ target, s.powTarget = .ok target ∧ lessWork (b.id c) target = false := by
  simp only [validateBlock,validateOrphan,bind_unit_eq_ok] at h
  have hheader := h.2.1.2.2.1
  rw [validateHeader,bind_unit_eq_ok,bind_eq_ok] at hheader
  obtain ⟨-,median,-,hheader⟩ := hheader
  simp only [bind_eq_ok,rejectIf_eq_ok] at hheader
  obtain ⟨⟨⟩,-,⟨⟩,-,target,htarget,hwork⟩ := hheader
  exact ⟨target,htarget,Bool.eq_false_iff.mpr hwork⟩

theorem Manager.At.state_of_validated {bl' : List Block} {ch' : Chain} {id : BlockID} (h : M.At cfg m bl' ch')
    (hset : Setting cfg.crypto m S (M.ingested ++ extra)) (hbl : Branch cfg.crypto m (M.ingested ++ extra) bl ch)
    (hid : ch.state.index.id = id) (hvalidated : M.store.Validated id) : M.store.state id = some ch.state := by
  obtain ⟨bl₁,ch₁,hbl₁,hid₁,hheld⟩ := h.sound.validated id hvalidated
  obtain ⟨-,rfl⟩ := hbl.unique hset hbl₁.append (hid.trans hid₁.symm)
  rw [← hid]
  exact (hheld.tip hbl₁.run).state

theorem validated_iff_supplement {st : Store} {id : BlockID} (hunpruned : ∀ id, ¬ st.Pruned id) :
    (∃ b bs, st.block id = some (b, some bs)) ↔ st.Validated id := by
  constructor
  · rintro ⟨b,bs,hblock⟩
    obtain ⟨sb,-,-,hiff⟩ := validated_iff_of_block hblock
    exact hiff.mpr rfl
  · rintro ⟨sb,hsb,hnone | hsome⟩
    · exact absurd ⟨sb,hsb,hnone⟩ (hunpruned id)
    · cases hbody : sb.block with
      | none => exact absurd ⟨sb,hsb,hbody⟩ (hunpruned id)
      | some b =>
        obtain ⟨bs,hbs⟩ := Option.isSome_iff_exists.mp hsome
        exact ⟨b,bs,by rw [Store.block,hsb,Option.bind_some,hbody,hbs]; rfl⟩

/-- For an honest block over a block of the store, the ID that the relay handler computes is that of the block
exactly if the parent has been validated; the peer is then not banned. -/
theorem relayed_id_iff (hreach : Reachable cfg m (Unpruned cfg) M) (hset : Setting cfg.crypto m S (M.ingested ++ extra))
    (hroom : ∀ bl ch, Branch cfg.crypto m (M.ingested ++ extra) bl ch → ch.leaves.length < 2^64 - 1)
    (hbl : Branch cfg.crypto m (M.ingested ++ extra) bl ch) (hvalid : validateBlock cfg.crypto ch.state b {} = .ok ())
    (hwhole : b.timestamp.WholeSecond) (hfits : b.Fits) (hs : M.store.state b.parentID = some s)
    (hS : ∀ x ∈ relayStrings cfg.crypto ch.state s b, x ∈ S) (v2txns : List V2Transaction) :
    ∃ ob, outlineBlock cfg.crypto b [] v2txns = .ok ob ∧
      (ob.id cfg.crypto s = b.id cfg.crypto ↔ ∃ parent bs, M.store.block b.parentID = some (parent, some bs)) ∧
      ((∃ parent bs, M.store.block b.parentID = some (parent, some bs)) →
        ∃ verdict, relayVerdict cfg.crypto M ob = .ok verdict ∧ verdict ≠ .insufficientWork) := by
  obtain ⟨bl₀,ch₀,h⟩ := hreach.proper.at_end hset.of_append
  have hparent := (block_accepted hvalid).parentID
  have hne : b.parentID ≠ default := hparent ▸ hbl.id_ne_default hset
  have hcommitment : (b.header cfg.crypto).commitment =
      ch.state.commitment cfg.crypto b.minerAddress [] b.v2Transactions := by
    simp [Block.header,v2_accepted hvalid]
  rw [validated_iff_supplement hreach.unpruned]
  have hexact : M.store.Validated b.parentID → s = ch.state := fun hvalidated =>
    Option.some.inj (hs.symm.trans (h.state_of_validated hset hbl hparent.symm hvalidated))
  refine ⟨_,outlineBlock_accepted hvalid v2txns,⟨fun hid => ?_,fun hvalidated => ?_⟩,fun hvalidated => ?_⟩
  · -- a state with the encoding of the true one has its number of leaves
    by_contra hnot
    obtain ⟨hwholeState,hnetwork,hsmaller⟩ := (carried_numLeaves hset hroom).reachable hset (List.prefix_append _ _)
      hreach.proper b.parentID s hs hne hnot
    have hencode := encode_of_outline_id hset.ideal.inj hvalid hwhole hfits hS hid
    have hw := hbl.writable hset
    have hlt := hsmaller bl ch hbl (hparent.symm.trans (h.sound.states _ s hs hne).1.symm)
    cases State.alike_of_encode hw.whole hwholeState (hnetwork.trans hw.network.symm) hencode with
    | mk ts acc hts hacc => exact absurd hlt (by rw [hacc.numLeaves]; exact lt_irrefl _)
  · rw [hexact hvalidated]
    exact id_outlineOf hcommitment _ _
  · obtain rfl := hexact hvalidated
    obtain ⟨target,htarget,hwork⟩ := work_accepted hvalid
    have hid : ∀ height remove, (outlineOf cfg.crypto b height remove).id cfg.crypto ch.state = b.id cfg.crypto :=
      id_outlineOf hcommitment
    rw [relayVerdict,show (outlineOf cfg.crypto b _ _).parentID = b.parentID from rfl,hs]
    simp only [hid,htarget,ok_bind,hwork,Bool.false_eq_true,if_false]
    split_ifs
    all_goals exact ⟨_,rfl,by decide⟩

end Relay

section Samples

def sampleOverTip : Outcome (Manager × Ingestion × Chain × Chain × Block × State) := do
  let (_, _, M, i, ch₀, ch₁) ← sampleIngested
  let b ← sampleMined ch₁.state (sampleTime.add 1000000000) 0 0
  validateBlock sampleCrypto ch₁.state b {}
  match M.store.state b.parentID with
  | none => fail "missing parent"
  | some s => return (M, i, ch₀, ch₁, b, s)

theorem sampleOverTip_inv {M : Manager} {i : Ingestion} {ch₀ ch₁ : Chain} {b : Block} {s : State}
    (h : sampleOverTip = .ok (M, i, ch₀, ch₁, b, s)) :
    (∃ M₀ b₁, sampleIngested = .ok (M₀, b₁, M, i, ch₀, ch₁)) ∧ validateBlock sampleCrypto ch₁.state b {} = .ok () ∧
      M.store.state b.parentID = some s := by
  simp only [sampleOverTip,bind_eq_ok,Prod.exists] at h
  obtain ⟨M₀,b₁,M',i',ch₀',ch₁',hingested,b',-,⟨⟩,hvalid,h⟩ := h
  split at h
  · cases h
  · rename_i s' hs
    simp only [pure_eq_ok,Prod.mk.injEq] at h
    obtain ⟨rfl,rfl,rfl,rfl,rfl,rfl⟩ := h
    exact ⟨⟨M₀,b₁,hingested⟩,hvalid,hs⟩

theorem relayed_id_iff_sample : ∃ S M bl ch b s ob, Reachable sampleConfig sampleManifest (Unpruned sampleConfig) M ∧
    Setting sampleCrypto sampleManifest S M.ingested ∧ Branch sampleCrypto sampleManifest M.ingested bl ch ∧
    validateBlock sampleCrypto ch.state b {} = .ok () ∧ M.store.state b.parentID = some s ∧
    outlineBlock sampleCrypto b [] [] = .ok ob ∧ ob.id sampleCrypto s = b.id sampleCrypto ∧
    ∃ verdict, relayVerdict sampleCrypto M ob = .ok verdict ∧ verdict ≠ .insufficientWork := by
  obtain ⟨⟨M,i,ch₀,ch₁,b,s⟩,hrun,hcheck⟩ := exists_of_holds (x := sampleOverTip)
    (p := fun (M, i, ch₀, ch₁, b, s) => decide (i.block.timestamp.nsec = 0 ∧
      i.block.id sampleCrypto ≠ i.block.parentID ∧ i.block.v2Transactions.length < 2^63 ∧
      (∀ txn ∈ i.block.v2Transactions, txn.encode.length < 2^64) ∧ ch₀.leaves.length < 2^64 - 1 ∧
      ch₁.leaves.length < 2^64 - 1 ∧ b.timestamp.nsec = 0 ∧ b.v2Transactions.length < 2^63 ∧
      (∀ txn ∈ b.v2Transactions, txn.encode.length < 2^64) ∧
      ((M.store.block b.parentID).bind Prod.snd).isSome = true ∧
      ((ch₁.messages ++ i.block.commitmentStrings sampleCrypto ch₀.state ++
        relayStrings sampleCrypto ch₁.state s b).dedup.map sampleCrypto.sum256).Nodup ∧
      ∀ x ∈ ch₁.messages ++ i.block.commitmentStrings sampleCrypto ch₀.state ++ relayStrings sampleCrypto ch₁.state s b,
        sampleCrypto.sum256 x ≠ default)) (by decide +kernel)
  obtain ⟨hwhole,hne,hcount,hsizes,hroom₀,hroom₁,hwhole',hcount',hsizes',hbody,hnodup,hideal⟩ :=
    of_decide_eq_true hcheck
  obtain ⟨⟨M₀,b₁,hingested⟩,hvalid,hs⟩ := sampleOverTip_inv hrun
  obtain ⟨hadded,hlog,hstart,hext⟩ := sampleIngested_inv hingested
  obtain ⟨-,-,hreach⟩ := sampleAdded_reachable hadded
  have hstored : i.block.stored = i.block := by rw [Block.stored,Time.truncate_eq hwhole]
  have hset : Setting sampleCrypto sampleManifest {x | x ∈ ch₁.messages ++ i.block.commitmentStrings sampleCrypto ch₀.state ++
      relayStrings sampleCrypto ch₁.state s b} (M.ingested ++ []) := by
    rw [hlog]
    exact Setting.single (idealOn_of_nodup hnodup hideal) rfl hstored ⟨hcount,hsizes⟩ hstart hext hne
      (fun x hx => List.mem_append_left _ (List.mem_append_left _ hx))
      fun x hx => List.mem_append_left _ (List.mem_append_right _ hx)
  have hbl : Branch sampleCrypto sampleManifest (M.ingested ++ []) [i.block] ch₁ := by
    refine (Branch.genesis hstart).snoc ?_ hext
    simp [hlog,taken,hstored]
  have hroom : ∀ bl ch, Branch sampleCrypto sampleManifest (M.ingested ++ []) bl ch → ch.leaves.length < 2^64 - 1 := by
    intro bl ch h
    rw [hlog] at h
    rcases h.single hstored hstart hext hne with ⟨-,rfl⟩ | ⟨-,rfl⟩
    · exact hroom₀
    · exact hroom₁
  have hsupplement : ∃ parent bs, M.store.block b.parentID = some (parent, some bs) := by
    obtain ⟨bs,hbs⟩ := Option.isSome_iff_exists.mp hbody
    obtain ⟨⟨parent,bs'⟩,hparent,rfl⟩ := Option.bind_eq_some_iff.mp hbs
    exact ⟨parent,bs,hparent⟩
  obtain ⟨ob,hob,hid,hverdict⟩ := relayed_id_iff hreach hset hroom hbl hvalid hwhole' ⟨hcount',hsizes'⟩ hs
    (fun x hx => List.mem_append_right _ hx) []
  rw [List.append_nil] at hset hbl
  exact ⟨_,M,_,ch₁,b,s,ob,hreach,hset,hbl,hvalid,hs,hob,hid.mpr hsupplement,hverdict hsupplement⟩

def sampleBeside : Outcome (Manager × Ingestion × Chain × Block × V2BlockOutline × State × RelayVerdict) := do
  let (M, _, M₁) ← sampleAdded
  let b₁ ← sampleMined M.tipState sampleTime 1 0
  let (_, M₂) ← exec (Manager.addBlocks sampleConfig [(sampleTime, b₁)]) M₁
  match M₂.ingested with
  | [_, i] => do
      let ch₀ ← sampleManifest.chain sampleCrypto
      let ch₁ ← ch₀.extend sampleCrypto noTimestamp i.block
      let b ← sampleMined ch₁.state (sampleTime.add 1000000000) 0 1
      validateBlock sampleCrypto ch₁.state b {}
      let ob ← outlineBlock sampleCrypto b [] []
      let verdict ← relayVerdict sampleCrypto M₂ ob
      match M₂.store.state b.parentID with
      | none => fail "missing parent"
      | some s => return (M₂, i, ch₁, b, ob, s, verdict)
  | _ => fail "not two blocks"

/-- The manager has only applied the header of the parent, and the ID of the outline is not that of the block:
whoever relays the block is banned. -/
theorem relay_beside_banned : ∃ M bl ch b s ob, Reachable sampleConfig sampleManifest (Unpruned sampleConfig) M ∧
    Branch sampleCrypto sampleManifest M.ingested bl ch ∧ validateBlock sampleCrypto ch.state b {} = .ok () ∧
    M.store.state b.parentID = some s ∧ outlineBlock sampleCrypto b [] [] = .ok ob ∧
    ob.id sampleCrypto s ≠ b.id sampleCrypto ∧ relayVerdict sampleCrypto M ob = .ok .insufficientWork := by
  obtain ⟨⟨M,i,ch₁,b,ob,s,verdict⟩,hrun,hcheck⟩ := exists_of_holds (x := sampleBeside)
    (p := fun (_, i, _, b, ob, s, verdict) => decide (i.block.timestamp.nsec = 0 ∧
      ob.id sampleCrypto s ≠ b.id sampleCrypto ∧ verdict = .insufficientWork)) (by decide +kernel)
  obtain ⟨hwhole,hid,rfl⟩ := of_decide_eq_true hcheck
  simp only [sampleBeside,bind_eq_ok,Prod.exists] at hrun
  obtain ⟨M₀,b₀,M₁,hadded,b₁,-,r,M₂,hbeside,hrun⟩ := hrun
  obtain ⟨-,-,hreach⟩ := sampleAdded_reachable hadded
  split at hrun
  · rename_i i₁ i₂ hlog
    simp only [bind_eq_ok] at hrun
    obtain ⟨ch₀,hstart,ch₂,hext,b₂,-,⟨⟩,hvalid,ob',hob,verdict,hverdict,hrun⟩ := hrun
    split at hrun
    · cases hrun
    · rename_i s' hs
      simp only [pure_eq_ok,Prod.mk.injEq] at hrun
      obtain ⟨rfl,rfl,rfl,rfl,rfl,rfl,rfl⟩ := hrun
      have htaken : i₂.block ∈ taken M₂.ingested := by
        have hstored : i₂.block.stored = i₂.block := by rw [Block.stored,Time.truncate_eq hwhole]
        simp [hlog,taken,hstored]
      exact ⟨M₂,[i₂.block],ch₂,b₂,s',ob',Reachable.step (e := .addBlocks _) hreach trivial hbeside,
        (Branch.genesis hstart).snoc htaken hext,hvalid,hs,hob,hid,hverdict⟩
  · cases hrun

end Samples

end QdayNode
