import QdayNode.Consensus.Transfers

/-!
# Identifiers

Output IDs, transaction IDs and block IDs are hashes of strings from which what they
identify can be read back, and the strings of different kinds never coincide.  With
a collision-free hash the blocks of a chain therefore have distinct IDs: equal IDs
would mean equal parents, down to the genesis block, whose parent is the zero hash.
-/
namespace QdayNode
open ByteString

variable {i j : ℕ} {bid : BlockID} {txn : V2Transaction} {c : Crypto} {S : Set Bytes} {h : BlockHeader}
  {l : List BlockHeader}

section Preimages

theorem siacoinOutputPreimage_inj {txid txid' : TransactionID}
    (h : siacoinOutputPreimage txid i = siacoinOutputPreimage txid' j) :
    txid = txid' ∧ UInt64.ofNat i = UInt64.ofNat j := by
  simp only [siacoinOutputPreimage,List.append_assoc] at h
  obtain ⟨htxid,h⟩ := (prefixCode_fixedBytes 32).apply (List.append_cancel_left h)
  exact ⟨htxid,encodeUint64_injective h⟩

theorem minerOutputPreimage_inj {bid' : BlockID}
    (h : minerOutputPreimage bid i = minerOutputPreimage bid' j) : bid = bid' :=
  ((prefixCode_fixedBytes 32).apply h).1

theorem length_siacoinOutputPreimage (txid : TransactionID) (i : ℕ) : (siacoinOutputPreimage txid i).length = 61 := by
  have hlead : (Crypto.distinguisher "id/siacoinoutput").length = 21 := by decide
  simp only [siacoinOutputPreimage,List.length_append,hlead,length_encodeUint64,FixedBytes.length_val]

theorem length_minerOutputPreimage (bid : BlockID) (i : ℕ) : (minerOutputPreimage bid i).length = 40 := by
  simp only [minerOutputPreimage,List.length_append,length_encodeUint64,FixedBytes.length_val]

theorem siacoinOutputPreimage_ne_miner (txid : TransactionID) (bid : BlockID) (i j : ℕ) :
    siacoinOutputPreimage txid i ≠ minerOutputPreimage bid j := by
  intro h
  have hlen := congrArg List.length h
  rw [length_siacoinOutputPreimage,length_minerOutputPreimage] at hlen
  omega

theorem siacoinOutputPreimage_ne_v1 (txn : Transaction) (txid : TransactionID) (i j : ℕ) :
    siacoinOutputPreimage txid i ≠ txn.siacoinOutputPreimage j := by
  intro h
  have hhead := congrArg (List.take 4) h
  have hv2 : (siacoinOutputPreimage txid i).take 4 = [115,105,97,47] := by
    rw [siacoinOutputPreimage,List.append_assoc,List.take_append_of_le_length (by decide)]
    decide
  have hv1 : (txn.siacoinOutputPreimage j).take 4 = [115,105,97,99] := by
    rw [Transaction.siacoinOutputPreimage,List.append_assoc,List.take_append_of_le_length (by decide)]
    decide
  rw [hv2,hv1] at hhead
  exact absurd hhead (by decide)

theorem minerOutputPreimage_ne_v1 (txn : Transaction) (bid : BlockID) (i j : ℕ) :
    minerOutputPreimage bid i ≠ txn.siacoinOutputPreimage j := by
  intro h
  have hlen := congrArg List.length h
  rw [length_minerOutputPreimage] at hlen
  simp only [Transaction.siacoinOutputPreimage,Transaction.encodeSansSigs,List.length_append,length_encodeList,
    length_encodeUint64,FixedBytes.length_val] at hlen
  omega

theorem encodeList_map {α β : Type} (enc : β → Bytes) (f : α → β) (l : List α) :
    encodeList (fun a => enc (f a)) l = encodeList enc (l.map f) := by
  simp [encodeList,List.flatMap_map]

theorem inputIDs_of_idPreimage {txn' : V2Transaction} (hlen : txn.siacoinInputs.length < 2^64)
    (hlen' : txn'.siacoinInputs.length < 2^64) (h : txn.idPreimage = txn'.idPreimage) :
    txn.inputIDs = txn'.inputIDs := by
  have hids : ∀ t : V2Transaction, encodeList (fun sci => sci.parent.id.val) t.siacoinInputs =
      encodeList (fun id : SiacoinOutputID => id.val) t.inputIDs := fun t =>
    encodeList_map (fun id : SiacoinOutputID => id.val) V2SiacoinInput.parentID t.siacoinInputs
  have hbytes := List.append_cancel_left h
  rw [V2Transaction.encodeSemantics,V2Transaction.encodeSemantics,hids,hids] at hbytes
  refine ((prefixCode_fixedBytes 32).list ⟨?_,fun _ _ => trivial⟩ ⟨?_,fun _ _ => trivial⟩ hbytes).1
  · rwa [V2Transaction.inputIDs,List.length_map]
  · rwa [V2Transaction.inputIDs,List.length_map]

end Preimages

section Headers

/-- Headers from the newest back to the genesis header, whose parent is zero. -/
def Linked (c : Crypto) : List BlockHeader → Prop
  | [] => False
  | [genesis] => genesis.parentID = default
  | h :: h' :: rest => h.parentID = h'.id c ∧ Linked c (h' :: rest)

theorem parentID_of_preimage {h' : BlockHeader} (heq : h.preimage = h'.preimage) : h.parentID = h'.parentID := by
  simp only [BlockHeader.preimage,List.append_assoc] at heq
  exact ((prefixCode_fixedBytes 32).apply heq).1

theorem Linked.parent_mem (hinj : Set.InjOn c.sum256 S) (hmem : ∀ x ∈ l, x.preimage ∈ S)
    (hl : Linked c l) (hh : h.preimage ∈ S) (hid : h.id c ∈ l.map (BlockHeader.id c)) :
    h.parentID = default ∨ h.parentID ∈ l.tail.map (BlockHeader.id c) := by
  induction l with
  | nil => cases hl
  | cons x rest ih =>
    rw [List.forall_mem_cons] at hmem
    rcases List.mem_cons.mp hid with hx | hx
    · have hparent := parentID_of_preimage (hinj hh hmem.1 hx)
      cases rest with
      | nil => exact .inl (hparent.trans hl)
      | cons y rest => exact .inr (hparent.trans hl.1 ▸ List.mem_cons_self)
    · cases rest with
      | nil => cases hx
      | cons y rest =>
        obtain hzero | hin := ih hmem.2 hl.2 hx
        · exact .inl hzero
        · exact .inr (List.mem_cons_of_mem _ hin)

theorem Linked.nodup (hideal : IdealOn c.sum256 default S) (hmem : ∀ x ∈ l, x.preimage ∈ S)
    (hl : Linked c l) : (l.map (BlockHeader.id c)).Nodup := by
  induction l with
  | nil => cases hl
  | cons h rest ih =>
    cases rest with
    | nil => simp
    | cons h' rest =>
      rw [List.forall_mem_cons] at hmem
      have htail := ih hmem.2 hl.2
      rw [List.map_cons,List.nodup_cons]
      refine ⟨fun hid => ?_,htail⟩
      obtain hzero | hin := hl.2.parent_mem hideal.inj hmem.2 hmem.1 hid
      · exact hideal.ne_sentinel _ (hmem.2 h' List.mem_cons_self) (hl.1.symm.trans hzero)
      · rw [List.map_cons,List.nodup_cons] at htail
        exact htail.1 (hl.1 ▸ hin)

end Headers

section Origins

/-- Where an output ID can come from: the genesis transaction, the payout of a block in `bids`, or a
transaction one of whose inputs has been consumed. -/
inductive Origin (c : Crypto) (S : Set Bytes) (genesis : Transaction) (consumed : List SiacoinOutputID)
    (bids : List BlockID) : SiacoinOutputID → Prop
  | genesis (hS : genesis.siacoinOutputPreimage 0 ∈ S) : Origin c S genesis consumed bids (genesis.siacoinOutputID c 0)
  | payout (bid : BlockID) (hbid : bid ∈ bids) (hS : minerOutputPreimage bid 0 ∈ S) :
      Origin c S genesis consumed bids (minerOutputID c bid 0)
  | output (txn : V2Transaction) (i : ℕ) (hid : txn.idPreimage ∈ S) (hS : siacoinOutputPreimage (txn.id c) i ∈ S)
      (hlen : txn.siacoinInputs.length < 2^64) (id : SiacoinOutputID) (hin : id ∈ txn.inputIDs)
      (hconsumed : id ∈ consumed) : Origin c S genesis consumed bids (siacoinOutputID c (txn.id c) i)

variable {genesis : Transaction} {consumed consumed' : List SiacoinOutputID}
  {bids bids' : List BlockID} {id : SiacoinOutputID}

theorem Origin.mono (hconsumed : ∀ x ∈ consumed, x ∈ consumed') (hbids : ∀ x ∈ bids, x ∈ bids')
    (h : Origin c S genesis consumed bids id) : Origin c S genesis consumed' bids' id := by
  cases h with
  | genesis hS => exact .genesis hS
  | payout bid hbid hS => exact .payout bid (hbids bid hbid) hS
  | output txn i hid hS hlen p hin hp => exact .output txn i hid hS hlen p hin (hconsumed p hp)

theorem Origin.ne_output (hinj : Set.InjOn c.sum256 S) (h : Origin c S genesis consumed bids id)
    (hid : txn.idPreimage ∈ S) (hS : siacoinOutputPreimage (txn.id c) i ∈ S)
    (hlen : txn.siacoinInputs.length < 2^64) (hunspent : ∀ p ∈ txn.inputIDs, p ∉ consumed) :
    id ≠ siacoinOutputID c (txn.id c) i := by
  intro heq
  cases h with
  | genesis hS' => exact siacoinOutputPreimage_ne_v1 _ _ _ _ (hinj hS' hS heq).symm
  | payout bid _ hS' => exact siacoinOutputPreimage_ne_miner _ _ _ _ (hinj hS' hS heq).symm
  | output txn' j hid' hS' hlen' p hin hp =>
    obtain ⟨htxid,-⟩ := siacoinOutputPreimage_inj (hinj hS' hS heq)
    have hids := inputIDs_of_idPreimage hlen' hlen (hinj hid' hid htxid)
    exact hunspent p (hids ▸ hin) hp

theorem Origin.ne_payout (hinj : Set.InjOn c.sum256 S) (h : Origin c S genesis consumed bids id)
    (hbid : bid ∉ bids) (hS : minerOutputPreimage bid 0 ∈ S) : id ≠ minerOutputID c bid 0 := by
  intro heq
  cases h with
  | genesis hS' => exact minerOutputPreimage_ne_v1 _ _ _ _ (hinj hS' hS heq).symm
  | payout bid' hbid' hS' => exact hbid (minerOutputPreimage_inj (hinj hS' hS heq) ▸ hbid')
  | output txn' j _ hS' _ _ _ _ => exact siacoinOutputPreimage_ne_miner _ _ _ _ (hinj hS' hS heq)

end Origins

end QdayNode
