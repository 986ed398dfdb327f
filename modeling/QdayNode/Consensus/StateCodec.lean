import QdayNode.Consensus.Alike
import QdayNode.Consensus.BlockDecoding
import QdayNode.Consensus.Chain

/-!
# Decoding states

`State.DecodeFrom` writes into a state that is already there: the network, the
timestamps beyond the chain and the roots of missing trees stay what they were.  What is
decoded from the encoding of a state is alike to it, so on the states of a chain no
transition can tell the two apart.
-/
namespace QdayNode
open ByteString Decoder
open Outcome (Agree ok_bind bind_eq_ok pure_eq_ok bind_unit_eq_ok)

variable {s : State} {au : ApplyUpdate}

def readWord : Decoder UInt64 := do
  let b ← readFixed 8
  return UInt64.ofNat (ofBigEndian b.val)

def Work.decode : Decoder Work := do
  let w0 ← readWord
  let w1 ← readWord
  let w2 ← readWord
  let w3 ← readWord
  return ⟨w0, w1, w2, w3⟩

namespace ElementAccumulator

def readTree (acc : ElementAccumulator) (i : ℕ) : Decoder ElementAccumulator :=
  if acc.hasTreeAtHeight i then do
    let root ← readFixed 32
    return { acc with trees := Function.update acc.trees i root }
  else return acc

def decode (acc : ElementAccumulator) : Decoder ElementAccumulator := do
  let numLeaves ← readUint64
  (List.range 64).foldlM readTree { acc with numLeaves }

end ElementAccumulator

namespace State

def overwriteTimestamps (s : State) (ts : List Time) : State :=
  { s with
    prevTimestamps := ⟨(ts ++ s.prevTimestamps.val.drop ts.length).take 11, by
      rw [List.length_take, List.length_append, List.length_drop, s.prevTimestamps.property]
      omega⟩ }

def decode (s : State) : Decoder State := do
  let index ← ChainIndex.decode
  let s := { s with index }
  let ts ← readCount Time.decode s.numTimestamps
  let s := s.overwriteTimestamps ts
  let depth ← readFixed 32
  let childTarget ← readFixed 32
  let siafundTaxRevenue ← Currency.decodeV2
  let oakTime ← readUint64
  let oakTarget ← readFixed 32
  let foundationSubsidyAddress ← readFixed 32
  let foundationManagementAddress ← readFixed 32
  let totalWork ← Work.decode
  let difficulty ← Work.decode
  let oakWork ← Work.decode
  let elements ← s.elements.decode
  let attestations ← readUint64
  let qdayHeight ← readUint64
  return { s with
    depth, childTarget, siafundTaxRevenue
    oakTime := oakTime.toInt64
    oakTarget, foundationSubsidyAddress, foundationManagementAddress, totalWork, difficulty, oakWork, elements,
    attestations, qdayHeight }

end State

section RoundTrip

@[simp] theorem run_readWord (w : UInt64) (r : Bytes) : readWord.run (bigEndian 8 w.toNat ++ r) = .ok (w, r) := by
  have hread := run_readFixed ⟨bigEndian 8 w.toNat,length_bigEndian 8 w.toNat⟩ r
  have hback : UInt64.ofNat (ofBigEndian (bigEndian 8 w.toNat)) = w := by
    rw [ofBigEndian_bigEndian,Nat.mod_eq_of_lt (by simpa using w.toNat_lt),UInt64.ofNat_toNat]
  simp only [readWord,run_bind,hread,ok_bind,hback,run_pure]

@[simp] theorem run_work (w : Work) (r : Bytes) : Work.decode.run (w.encode ++ r) = .ok (w, r) := by
  simp [Work.decode,Work.encode]

/-- The roots that are there are written over those of the receiver. -/
def ElementAccumulator.overwriteTrees (a acc : ElementAccumulator) (l : List ℕ) : ElementAccumulator :=
  { a with trees := fun i => if i ∈ l ∧ acc.hasTreeAtHeight i = true then acc.trees i else a.trees i }

theorem run_readTrees (acc a : ElementAccumulator) (hn : a.numLeaves = acc.numLeaves) (l : List ℕ) (r : Bytes) :
    (l.foldlM ElementAccumulator.readTree a).run
        ((l.flatMap fun i => if acc.hasTreeAtHeight i then (acc.trees i).val else []) ++ r) =
      .ok (a.overwriteTrees acc l, r) := by
  induction l generalizing a with
  | nil => simp [ElementAccumulator.overwriteTrees]
  | cons i l ih =>
    have hsame : a.hasTreeAtHeight i = acc.hasTreeAtHeight i := by
      rw [ElementAccumulator.hasTreeAtHeight,ElementAccumulator.hasTreeAtHeight,hn]
    rw [List.foldlM_cons,run_bind,List.flatMap_cons,List.append_assoc,ElementAccumulator.readTree,hsame]
    cases htree : acc.hasTreeAtHeight i with
    | false =>
      have hover : a.overwriteTrees acc l = a.overwriteTrees acc (i :: l) := by
        have htrees : ∀ j, (j ∈ l ∧ acc.hasTreeAtHeight j = true) = (j ∈ i :: l ∧ acc.hasTreeAtHeight j = true) := by
          intro j
          refine propext ⟨fun h => ⟨List.mem_cons_of_mem i h.1,h.2⟩,fun h => ⟨?_,h.2⟩⟩
          obtain rfl | hj := List.mem_cons.mp h.1
          · exact absurd (htree.symm.trans h.2) Bool.false_ne_true
          · exact hj
        simp only [ElementAccumulator.overwriteTrees,htrees]
      rw [← hover]
      exact ih _ hn
    | true =>
      have hover : ElementAccumulator.overwriteTrees { a with trees := Function.update a.trees i (acc.trees i) } acc l =
          a.overwriteTrees acc (i :: l) := by
        simp only [ElementAccumulator.overwriteTrees,ElementAccumulator.mk.injEq,and_true]
        funext j
        by_cases hj : j = i
        · subst hj
          simp [htree]
        · simp [hj]
      rw [← hover]
      simp only [if_true,run_bind,run_readFixed,ok_bind,run_pure]
      exact ih _ hn

theorem run_accumulator (acc a : ElementAccumulator) (r : Bytes) :
    ∃ acc', a.decode.run (acc.encode ++ r) = .ok (acc', r) ∧ acc.Alike acc' := by
  have hread := run_readTrees acc { a with numLeaves := acc.numLeaves } rfl (List.range 64) r
  refine ⟨ElementAccumulator.overwriteTrees { a with numLeaves := acc.numLeaves } acc (List.range 64),?_,?_⟩
  · rw [ElementAccumulator.decode,ElementAccumulator.encode,List.append_assoc,run_bind,run_readUint64,ok_bind]
    exact hread
  · refine ⟨rfl,fun i htree => ?_⟩
    have hlt : i < 64 :=
      (Nat.pow_lt_pow_iff_right (by decide)).mp ((Nat.ge_two_pow_of_testBit htree).trans_lt acc.numLeaves.toNat_lt)
    exact if_pos ⟨List.mem_range.mpr hlt,htree⟩

theorem State.run_decode (hlive : ∀ t ∈ s.prevTimestamps.val.take s.numTimestamps, t.WholeSecond) {t : State}
    (hnetwork : t.network = s.network) (r : Bytes) :
    ∃ s', t.decode.run (s.encode ++ r) = .ok (s', r) ∧ s.Alike s' := by
  set live := s.prevTimestamps.val.take s.numTimestamps with hlive_eq
  have hcount : live.length = s.numTimestamps := by
    rw [hlive_eq,List.length_take,s.prevTimestamps.property]
    exact min_eq_left (min_le_right _ _)
  have hshort : s.numTimestamps ≤ 11 := min_le_right _ _
  have hreads : Reads Time.WholeSecond Time.encode Time.decode := fun t r ht _ => run_time ht r
  have hlen : (live.flatMap Time.encode).length < 2^64 := by
    have hflat : (live.flatMap Time.encode).length = live.length * 8 := by
      rw [List.length_flatMap,List.map_congr_left (g := fun _ => 8) fun t _ => ?_]
      · simp
      · rfl
    omega
  have htimes := fun r => hreads.readCount hlive hlen r
  rw [hcount] at htimes
  have hnum : State.numTimestamps { t with index := s.index } = s.numTimestamps := rfl
  set u := State.overwriteTimestamps { t with index := s.index } live with hu
  obtain ⟨acc,hacc,halike⟩ := run_accumulator s.elements u.elements
    (encodeUint64 s.attestations ++ (encodeUint64 s.qdayHeight ++ r))
  refine ⟨{ s with
    prevTimestamps := u.prevTimestamps, elements := acc },?_,⟨_,acc,?_,halike⟩⟩
  · simp only [State.decode,State.encode,← hlive_eq,List.append_assoc,run_bind,run_chainIndex,ok_bind,hnum,
      htimes,run_readFixed,run_currency,run_readUint64,run_work,← hu,hacc,run_pure]
    have hoak : s.oakTime.toUInt64.toInt64 = s.oakTime := by simp
    have hsame : u.network = s.network ∧ u.index = s.index := ⟨hnetwork,rfl⟩
    rw [hoak,hsame.1,hsame.2]
  · have htake : u.prevTimestamps.val = (live ++ t.prevTimestamps.val.drop live.length).take 11 := rfl
    rw [htake,List.take_take,min_eq_left hshort]
    exact List.take_left' hcount

end RoundTrip

section Runs

variable {c : Crypto} {s' : State} {bh : BlockHeader} {b : Block} {bs : V1BlockSupplement} {t : Time}

theorem applyHeader_target (h : ¬ s.childHeight < Network.v2Height) (bh : BlockHeader) (t t' : Time) :
    applyHeader c s bh t = applyHeader c s bh t' := by
  simp only [applyHeader,advanceWork,adjustDifficulty,if_neg h]

theorem applyBlock_target (h : ¬ s.childHeight < Network.v2Height) (b : Block) (bs : V1BlockSupplement) (t t' : Time) :
    applyBlock c s b bs t = applyBlock c s b bs t' := by
  have hheader : ∀ ms acc, applyHeader c (s.withBlock ms acc) (b.header c) t =
      applyHeader c (s.withBlock ms acc) (b.header c) t' := fun ms acc => applyHeader_target (s := s.withBlock ms acc) h _ _ _
  simp only [applyBlock,hheader]

theorem applyHeader_timestamps (h : applyHeader c s bh t = .ok s') :
    s'.prevTimestamps.val = (bh.timestamp :: s.prevTimestamps.val).take 11 := by
  simp only [applyHeader,bind_eq_ok,pure_eq_ok] at h
  obtain ⟨_,-,next,-,rfl⟩ := h
  split_ifs
  · rfl
  · rfl

theorem applyBlock_timestamps (h : applyBlock c s b bs t = .ok (s', au)) :
    s'.prevTimestamps.val = (b.timestamp :: s.prevTimestamps.val).take 11 := by
  rw [applyBlock,bind_unit_eq_ok] at h
  simp only [bind_eq_ok,pure_eq_ok,Prod.mk.injEq] at h
  obtain ⟨-,ms,-,out,-,next,hnext,rfl,-⟩ := h
  have hprev := applyHeader_timestamps hnext
  split_ifs
  · exact hprev
  · exact hprev

def State.Whole (s : State) : Prop := ∀ t ∈ s.prevTimestamps.val, t.WholeSecond

theorem State.Whole.step (h : s.Whole) (hb : b.timestamp.WholeSecond) (hs' : s'.prevTimestamps.val =
    (b.timestamp :: s.prevTimestamps.val).take 11) : s'.Whole := by
  intro t ht
  rw [hs'] at ht
  obtain rfl | ht := List.mem_cons.mp (List.mem_of_mem_take ht)
  · exact hb
  · exact h t ht

theorem State.alike_of_encode (hs : s.Whole) (hs' : s'.Whole) (hnetwork : s'.network = s.network)
    (heq : s'.encode = s.encode) : s.Alike s' := by
  obtain ⟨x,hx,halike⟩ := State.run_decode (fun t ht => hs t (List.mem_of_mem_take ht)) (rfl : s.network = s.network) []
  obtain ⟨x',hx',halike'⟩ := State.run_decode (fun t ht => hs' t (List.mem_of_mem_take ht)) hnetwork.symm []
  rw [heq,hx] at hx'
  obtain ⟨rfl,-⟩ := Outcome.ok_pair hx'
  exact halike.trans halike'.symm

theorem applyHeader_counted (h : applyHeader c s bh t = .ok s') : s'.Counted := by
  simp only [applyHeader,bind_eq_ok,pure_eq_ok] at h
  obtain ⟨_,-,next,-,rfl⟩ := h
  split_ifs with hv2
  · intro _
    change (default : BlockID).toNat + (default : BlockID).toNat = 0
    decide
  · intro hzero
    have hheight : next.index.height = 0 - 1 := eq_sub_of_add_eq hzero
    refine absurd ?_ hv2
    rw [hheight]
    decide

theorem applyBlock_counted (h : applyBlock c s b bs t = .ok (s', au)) : s'.Counted := by
  rw [applyBlock,bind_unit_eq_ok] at h
  simp only [bind_eq_ok,pure_eq_ok,Prod.mk.injEq] at h
  obtain ⟨-,ms,-,out,-,next,hnext,rfl,-⟩ := h
  have hcounted := applyHeader_counted hnext
  split_ifs
  · exact hcounted
  · exact hcounted

theorem genesisState_whole {n : Network} {root : State} (hroot : n.genesisState = .ok root) : root.Whole := by
  simp only [Network.genesisState,bind_eq_ok,pure_eq_ok] at hroot
  obtain ⟨_,-,_,-,rfl⟩ := hroot
  intro t ht
  rw [List.eq_of_mem_replicate ht]
  rfl

/-- What the encoding of the state of a chain rests on. -/
structure Chain.Writable (m : QdayManifest) (ch : Chain) : Prop where
  network : ch.state.network = m.network
  whole : ch.state.Whole
  counted : ch.state.Counted

variable {target : State → Block → Time} {m : QdayManifest} {blocks : List Block} {ch : Chain}

theorem runChain_writable (hgenesis : m.network.genesisTimestamp.WholeSecond)
    (hwhole : ∀ b ∈ blocks, b.timestamp.WholeSecond) (hrun : runChain c target m blocks = .ok ch) : ch.Writable m := by
  refine runChain_induct (S := Set.univ) (P := fun blocks ch => (∀ b ∈ blocks, b.timestamp.WholeSecond) → ch.Writable m)
    ?_ ?_ hrun (fun _ _ => trivial) hwhole
  · intro ch hch _ _
    simp only [QdayManifest.chain,QdayManifest.start,bind_eq_ok,pure_eq_ok] at hch
    obtain ⟨root,hroot,⟨s,au⟩,⟨root',hroot',happly⟩,rfl⟩ := hch
    obtain rfl := Except.ok.inj (hroot'.symm.trans hroot)
    obtain ⟨ms,out,ha⟩ := applyBlock_inv happly
    refine ⟨ha.network.trans (genesisState_frame hroot).1,?_,applyBlock_counted happly⟩
    exact (genesisState_whole hroot).step hgenesis (applyBlock_timestamps happly)
  · intro blocks b ch ch' _ ih hext _ hwhole
    rw [Chain.extend,bind_unit_eq_ok] at hext
    simp only [bind_eq_ok,pure_eq_ok] at hext
    obtain ⟨-,⟨s,au⟩,happly,rfl⟩ := hext
    obtain ⟨ms,out,ha⟩ := applyBlock_inv happly
    have hbefore := ih fun b' hb' => hwhole b' (List.mem_append_left [b] hb')
    have hlast := hwhole b (List.mem_append_right blocks List.mem_cons_self)
    exact ⟨ha.network.trans hbefore.network,hbefore.whole.step hlast (applyBlock_timestamps happly),
      applyBlock_counted happly⟩

/-- A state of a chain comes back from its encoding as one that no transition tells apart from it. -/
theorem decode_indistinguishable (hgenesis : m.network.genesisTimestamp.WholeSecond)
    (hdecoded : ∀ b ∈ blocks, b.Decoded c) (hrun : runChain c target m blocks = .ok ch) (receiver : State)
    (hnetwork : receiver.network = m.network) (rest : Bytes) :
    ∃ s, receiver.decode.run (ch.state.encode ++ rest) = .ok (s, rest) ∧ s.encode = ch.state.encode ∧
      (∀ b bs, validateBlock c s b bs = validateBlock c ch.state b bs) ∧
      (∀ bh, validateHeader c s bh = validateHeader c ch.state bh) ∧
      (∀ bh t, Agree (fun next next' => next'.encode = next.encode) (applyHeader c ch.state bh t) (applyHeader c s bh t)) ∧
      ∀ b bs t, Agree (fun r r' => r'.1.encode = r.1.encode ∧ r'.2 = r.2) (applyBlock c ch.state b bs t)
        (applyBlock c s b bs t) := by
  have hw := runChain_writable hgenesis (fun b hb => (hdecoded b hb).wholeSecond) hrun
  obtain ⟨s,hread,halike⟩ := State.run_decode (fun t ht => hw.whole t (List.mem_of_mem_take ht))
    (hnetwork.trans hw.network.symm) rest
  refine ⟨s,hread,halike.encode,halike.validateBlock,halike.validateHeader,fun bh t => ?_,fun b bs t => ?_⟩
  · exact (halike.applyHeader hw.counted bh t).mono fun _ _ h => h.encode
  · exact (halike.applyBlock hw.counted b bs t).mono fun _ _ h => ⟨h.1.encode,h.2⟩

def sampleShortRun : Outcome (Chain × Block × Chain) := do
  let ch ← runChain sampleCrypto (fun _ _ => default) sampleManifest []
  let b ← candidateWithNonce sampleCrypto ch.state sampleKeys [] sampleTime 0
  let ch' ← runChain sampleCrypto (fun _ _ => default) sampleManifest [b]
  return (ch, b, ch')

theorem decode_indistinguishable_sample : ∃ b ch, b.Decoded sampleCrypto ∧
    runChain sampleCrypto (fun _ _ => default) sampleManifest [b] = .ok ch ∧
    ∃ s, (sampleState ⟨fun _ => default, 7⟩).decode.run (ch.state.encode ++ [1]) = .ok (s, [1]) ∧
      s.encode = ch.state.encode := by
  obtain ⟨⟨ch,b,ch'⟩,hrun,hcheck⟩ := Outcome.exists_of_holds (x := sampleShortRun)
    (p := fun r => decide (r.1.state.qdayV1Active r.1.state.childHeight = false ∧
      (encodeList SiacoinOutput.encodeV1 [⟨r.1.state.blockReward,sampleKeys.policy.address sampleCrypto⟩]).length < 2^64))
    (by decide +kernel)
  obtain ⟨hv1,hpayouts⟩ := of_decide_eq_true hcheck
  simp only [sampleShortRun,bind_eq_ok,pure_eq_ok,Prod.mk.injEq] at hrun
  obtain ⟨ch₀,-,b₀,hb,ch₁,hrun,rfl,rfl,rfl⟩ := hrun
  have hdecoded : b₀.Decoded sampleCrypto := emptyCandidate_decoded hv1 hb (by decide +kernel) hpayouts
  obtain ⟨s,hread,hencode,-⟩ := decode_indistinguishable (c := sampleCrypto) (m := sampleManifest) rfl
    (List.forall_mem_singleton.mpr hdecoded) hrun (sampleState ⟨fun _ => default,7⟩) rfl [1]
  exact ⟨b₀,ch₁,hdecoded,hrun,s,hread,hencode⟩

end Runs

end QdayNode
