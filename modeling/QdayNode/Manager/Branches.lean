import QdayNode.Consensus.StateCodec
import QdayNode.Manager.Paths

/-!
# The branches that a manager has validated

A branch is a list of blocks that `ValidateBlock` and `ApplyBlock` accept one after the
other from the genesis block on, made of blocks that the manager has taken in, in the
form in which the store reads them back.  Without hash collisions a branch is determined
by the ID of its last block, so the manager may identify it by that ID.
-/
namespace QdayNode
open ByteString Outcome

variable {s : State} {b : Block}

theorem State.Whole.stored (h : s.Whole) : s.stored = s := by
  have hmap : s.prevTimestamps.val.map Time.truncate = s.prevTimestamps.val := by
    rw [List.map_congr_left fun t ht => Time.truncate_eq (h t ht),List.map_id']
  have hsub : (⟨s.prevTimestamps.val.map Time.truncate,by simp [s.prevTimestamps.property]⟩ :
      {ts : List Time // ts.length = 11}) = s.prevTimestamps := Subtype.ext hmap
  rw [State.stored,hsub]

theorem Block.timestamp_of_stored (h : b.stored = b) : b.timestamp.WholeSecond := by
  rw [← h]
  exact Time.wholeSecond_truncate _

def noTimestamp (_ : State) (_ : Block) : Time := default

def taken (log : List Ingestion) : List Block := log.map fun i => i.block.stored

/-- A valid chain of blocks from the log. -/
structure Branch (c : Crypto) (m : QdayManifest) (log : List Ingestion) (bl : List Block) (ch : Chain) : Prop where
  run : runChain c noTimestamp m bl = .ok ch
  mem : ∀ b ∈ bl, b ∈ taken log

/-- What is assumed of the blocks of a log: the hash has no collisions on a set of strings that holds their
headers and whatever is hashed on the valid chains made of them, their number and sizes are those of a
machine, and the genesis time can be stored. -/
structure Setting (c : Crypto) (m : QdayManifest) (S : Set Bytes) (log : List Ingestion) : Prop where
  ideal : IdealOn c.sum256 default S
  whole : m.network.genesisTimestamp.WholeSecond
  count : log.length < 2^62
  fits : ∀ b ∈ taken log, b.Fits
  headers : ∀ b ∈ taken log, (b.header c).preimage ∈ S
  messages : ∀ bl ch, Branch c m log bl ch → ∀ x ∈ ch.messages, x ∈ S
  commitments : ∀ bl ch b, Branch c m log bl ch → b ∈ taken log → validateBlock c ch.state b {} = .ok () →
    ∀ x ∈ b.commitmentStrings c ch.state, x ∈ S

variable {c : Crypto} {m : QdayManifest} {S : Set Bytes} {log more : List Ingestion} {bl bl' : List Block} {b' : Block}
  {ch ch' : Chain}

section Log

theorem taken_stored (h : b ∈ taken log) : b.stored = b := by
  obtain ⟨i,-,rfl⟩ := List.mem_map.mp h
  rfl

theorem mem_taken_append (h : b ∈ taken log) : b ∈ taken (log ++ more) := by
  rw [taken,List.map_append]
  exact List.mem_append_left _ h

theorem Branch.append (h : Branch c m log bl ch) : Branch c m (log ++ more) bl ch :=
  ⟨h.run,fun b hb => mem_taken_append (h.mem b hb)⟩

theorem Setting.of_append (h : Setting c m S (log ++ more)) : Setting c m S log where
  ideal := h.ideal
  whole := h.whole
  count := lt_of_le_of_lt (by simp) h.count
  fits b hb := h.fits b (mem_taken_append hb)
  headers b hb := h.headers b (mem_taken_append hb)
  messages bl ch hbl := h.messages bl ch hbl.append
  commitments bl ch b hbl hb := h.commitments bl ch b hbl.append (mem_taken_append hb)

end Log

section Extension

theorem Chain.extend_applied (h : ch.extend c noTimestamp b = .ok ch') (t : Time) :
    ∃ au, applyBlock c ch.state b {} t = .ok (ch'.state, au) := by
  have haccepted := block_accepted (Chain.extend_inv h).1
  rw [Chain.extend,bind_unit_eq_ok] at h
  simp only [bind_eq_ok,pure_eq_ok] at h
  obtain ⟨-,⟨s,au⟩,happly,rfl⟩ := h
  exact ⟨au,(applyBlock_target haccepted.childHeight b {} t _).trans happly⟩

theorem Chain.extend_of_applied {au : ApplyUpdate} {t : Time} (hvalid : validateBlock c ch.state b {} = .ok ())
    (happly : applyBlock c ch.state b {} t = .ok (s, au)) : ∃ ch', ch.extend c noTimestamp b = .ok ch' ∧ ch'.state = s := by
  rw [applyBlock_target (block_accepted hvalid).childHeight b {} t (noTimestamp ch.state b)] at happly
  refine ⟨ch.after c b s au.diffs.sces,?_,rfl⟩
  rw [Chain.extend,hvalid,happly]
  rfl

end Extension

namespace Branch

theorem genesis (hchain : m.chain c = .ok ch) : Branch c m log [] ch := by
  refine ⟨?_,fun b hb => by cases hb⟩
  rw [runChain,hchain]
  rfl

theorem genesis_inv (h : Branch c m log [] ch) : m.chain c = .ok ch := by
  obtain ⟨ch₀,h₀,hnil⟩ := bind_eq_ok.mp h.run
  rw [h₀]
  exact hnil

theorem snoc (h : Branch c m log bl ch) (hb : b ∈ taken log) (hext : ch.extend c noTimestamp b = .ok ch') :
    Branch c m log (bl ++ [b]) ch' :=
  ⟨runChain_snoc.mpr ⟨ch,h.run,hext⟩,List.forall_mem_append.mpr ⟨h.mem,by simpa using hb⟩⟩

theorem snoc_inv (h : Branch c m log (bl ++ [b]) ch') :
    ∃ ch, Branch c m log bl ch ∧ b ∈ taken log ∧ ch.extend c noTimestamp b = .ok ch' := by
  obtain ⟨ch,hrun,hext⟩ := runChain_snoc.mp h.run
  obtain ⟨htaken,hb⟩ := List.forall_mem_append.mp h.mem
  exact ⟨ch,⟨hrun,htaken⟩,hb b (List.mem_singleton.mpr rfl),hext⟩

theorem split {rest : List Block} (h : Branch c m log (bl ++ rest) ch') : ∃ ch, Branch c m log bl ch := by
  induction rest using List.reverseRecOn generalizing ch' with
  | nil => exact ⟨ch',by rwa [List.append_nil] at h⟩
  | append_singleton rest b ih =>
    rw [← List.append_assoc] at h
    obtain ⟨before,hbefore,-⟩ := h.snoc_inv
    exact ih hbefore

theorem functional (h : Branch c m log bl ch) (h' : Branch c m log bl ch') : ch = ch' :=
  Except.ok.inj (h.run.symm.trans h'.run)

section Setting

variable (hset : Setting c m S log)
include hset

theorem valid (h : Branch c m log bl ch) : Chain.Valid c m S bl ch :=
  runChain_valid hset.ideal h.run (hset.messages bl ch h)

theorem writable (h : Branch c m log bl ch) : ch.Writable m :=
  runChain_writable hset.whole (fun b hb => Block.timestamp_of_stored (taken_stored (h.mem b hb))) h.run

theorem state_stored (h : Branch c m log bl ch) : ch.state.stored = ch.state := (h.writable hset).whole.stored

theorem id_ne_default (h : Branch c m log bl ch) : ch.state.index.id ≠ default := (h.valid hset).parentID_ne hset.ideal

theorem height (h : Branch c m log bl ch) : ch.state.index.height.toNat = bl.length := by
  rw [(h.valid hset).height]
  exact Word64.toNat_ofNat_of_lt (h.valid hset).short

theorem index_snoc (h : Branch c m log bl ch) (hext : ch.extend c noTimestamp b = .ok ch') :
    ch'.state.index = ⟨ch.state.childHeight, b.id c⟩ := by
  obtain ⟨hvalid,s,au,ms,out,ha,rfl⟩ := Chain.extend_inv hext
  change s.index = _
  rw [ha.index,(block_accepted hvalid).parentID,if_neg (h.id_ne_default hset)]

theorem genesis_header_mem (hchain : m.chain c = .ok ch) : (m.genesis.header c).preimage ∈ S := by
  have hbranch : Branch c m log [] ch := Branch.genesis hchain
  have hvalid := hbranch.valid hset
  exact hvalid.headers _ (by simp [chainHeaders])

theorem block_ne_default (hb : b ∈ taken log) : b.id c ≠ default := hset.ideal.ne_sentinel _ (hset.headers b hb)

theorem unique (h : Branch c m log bl ch) (h' : Branch c m log bl' ch')
    (hid : ch.state.index.id = ch'.state.index.id) : bl = bl' ∧ ch = ch' := by
  -- the genesis header has no parent, the header of a block has one
  have hgenesis : ∀ {bl : List Block} {ch ch' : Chain} {b : Block}, m.chain c = .ok ch' → Branch c m log (bl ++ [b]) ch →
      ch.state.index.id ≠ ch'.state.index.id := by
    intro bl ch ch' b hchain h heq
    obtain ⟨before,hbefore,hb,hext⟩ := h.snoc_inv
    have hmem := genesis_header_mem hset hchain
    have hbranch : Branch c m log [] ch' := Branch.genesis hchain
    have htip := (hbranch.valid hset).tip
    have hgid : m.genesis.id c = ch'.state.index.id := by simpa [chainHeaders,Block.id] using htip
    rw [hbefore.index_snoc hset hext,← hgid] at heq
    have hheader := header_eq_of_id hset.ideal.inj (hset.headers b hb) hmem
      (Block.timestamp_of_stored (taken_stored hb)) hset.whole heq
    have hparent : b.parentID = default := congrArg BlockHeader.parentID hheader
    rw [(block_accepted (Chain.extend_inv hext).1).parentID] at hparent
    exact hbefore.id_ne_default hset hparent
  induction bl using List.reverseRecOn generalizing bl' ch ch' with
  | nil =>
    cases bl' using List.reverseRecOn with
    | nil => exact ⟨rfl,h.functional h'⟩
    | append_singleton bl' b' => exact absurd hid.symm (hgenesis h.genesis_inv h')
  | append_singleton bl b ih =>
    cases bl' using List.reverseRecOn with
    | nil => exact absurd hid (hgenesis h'.genesis_inv h)
    | append_singleton bl' b' =>
      obtain ⟨before,hbefore,hb,hext⟩ := h.snoc_inv
      obtain ⟨before',hbefore',hb',hext'⟩ := h'.snoc_inv
      obtain ⟨hvalid,-⟩ := Chain.extend_inv hext
      obtain ⟨hvalid',-⟩ := Chain.extend_inv hext'
      rw [hbefore.index_snoc hset hext,hbefore'.index_snoc hset hext'] at hid
      have hheader := header_eq_of_id hset.ideal.inj (hset.headers b hb) (hset.headers b' hb')
        (Block.timestamp_of_stored (taken_stored hb)) (Block.timestamp_of_stored (taken_stored hb')) hid
      have hparent : b.parentID = b'.parentID := congrArg BlockHeader.parentID hheader
      rw [(block_accepted hvalid).parentID,(block_accepted hvalid').parentID] at hparent
      obtain ⟨rfl,rfl⟩ := ih hbefore hbefore' hparent
      obtain rfl := block_unique hset.ideal.inj hvalid hvalid' (hset.fits b hb) (hset.fits b' hb')
        (hset.commitments bl before b hbefore hb hvalid) (hset.commitments bl before b' hbefore hb' hvalid') hheader
      exact ⟨rfl,Except.ok.inj (hext.symm.trans hext')⟩

end Setting

end Branch

section Single

variable {i : Ingestion} {ch₀ ch₁ : Chain}

/-- Over a log with one block there are two branches at most. -/
theorem Branch.single (hstored : i.block.stored = i.block) (hstart : m.chain c = .ok ch₀)
    (hext : ch₀.extend c noTimestamp i.block = .ok ch₁) (hne : i.block.id c ≠ i.block.parentID)
    (h : Branch c m [i] bl ch) : (bl = [] ∧ ch = ch₀) ∨ (bl = [i.block] ∧ ch = ch₁) := by
  have hmem : ∀ b ∈ bl, b = i.block := fun b hb => by simpa [taken,hstored] using h.mem b hb
  induction bl using List.reverseRecOn generalizing ch with
  | nil => exact .inl ⟨rfl,Except.ok.inj (h.genesis_inv.symm.trans hstart)⟩
  | append_singleton bl b ih =>
    obtain rfl := hmem b (by simp)
    obtain ⟨before,hbefore,-,hext'⟩ := h.snoc_inv
    rcases ih hbefore fun b hb => hmem b (List.mem_append_left _ hb) with ⟨rfl,rfl⟩ | ⟨-,rfl⟩
    · exact .inr ⟨rfl,Except.ok.inj (hext'.symm.trans hext)⟩
    · -- the block would be its own parent
      obtain ⟨hvalid,-⟩ := Chain.extend_inv hext'
      obtain ⟨-,s,au,ms,out,ha,rfl⟩ := Chain.extend_inv hext
      have hparent : i.block.parentID = s.index.id := (block_accepted hvalid).parentID
      rw [ha.index] at hparent
      exact absurd hparent.symm hne

/-- What has to be checked for a log with one valid block. -/
theorem Setting.single (hideal : IdealOn c.sum256 default S) (hwhole : m.network.genesisTimestamp.WholeSecond)
    (hstored : i.block.stored = i.block) (hfits : i.block.Fits) (hstart : m.chain c = .ok ch₀)
    (hext : ch₀.extend c noTimestamp i.block = .ok ch₁) (hne : i.block.id c ≠ i.block.parentID)
    (hmessages : ∀ x ∈ ch₁.messages, x ∈ S) (hstrings : ∀ x ∈ i.block.commitmentStrings c ch₀.state, x ∈ S) :
    Setting c m S [i] := by
  have hone : ∀ b ∈ taken [i], b = i.block := fun b hb => by simpa [taken,hstored] using hb
  have hsub := Chain.extend_messages hext
  refine ⟨hideal,hwhole,by simp,fun b hb => hone b hb ▸ hfits,?_,?_,?_⟩
  · intro b hb
    obtain rfl := hone b hb
    obtain ⟨-,s,au,ms,out,-,rfl⟩ := Chain.extend_inv hext
    exact (Chain.after_hashed hmessages).1.header
  · intro bl ch h x hx
    rcases h.single hstored hstart hext hne with ⟨-,rfl⟩ | ⟨-,rfl⟩
    · exact hmessages x (hsub x hx)
    · exact hmessages x hx
  · intro bl ch b h hb hvalid
    obtain rfl := hone b hb
    rcases h.single hstored hstart hext hne with ⟨-,rfl⟩ | ⟨-,rfl⟩
    · exact hstrings
    · obtain ⟨-,s,au,ms,out,ha,rfl⟩ := Chain.extend_inv hext
      have hparent : i.block.parentID = s.index.id := (block_accepted hvalid).parentID
      rw [ha.index] at hparent
      exact absurd hparent.symm hne

end Single

end QdayNode
