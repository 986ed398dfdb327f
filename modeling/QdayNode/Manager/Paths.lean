import QdayNode.Library.Ancestry
import QdayNode.Manager.Manager

/-!
# Paths between blocks

`reorgPath` walks the headers of the store.  They form a tree when every header leads
down to the genesis block; an index belongs to the tree when its height is the number
of links down to it.  Heights are 64-bit words that wrap, so an index with a wrong height
is followed like any other one until a header is missing.
-/
namespace QdayNode
open Ancestry ByteString Manager Outcome

variable {st : Store} {a b i j z : ChainIndex} {n : ℕ}

namespace Store

def parentIndex (st : Store) (i : ChainIndex) : Option ChainIndex :=
  (st.header i.id).map fun bh => ⟨i.height - 1, bh.parentID⟩

/-- An index with the right height: the number of links down to the genesis block. -/
def Member (st : Store) (genesis : BlockID) (i : ChainIndex) : Prop :=
  ∃ l, Down st.parentIndex i l ⟨0, genesis⟩ ∧ l.length = i.height.toNat

/-- The headers form a tree over the genesis block, which is the best block at height 0. -/
structure HeaderTree (st : Store) (genesis : BlockID) : Prop where
  root : ∃ bh, st.header genesis = some bh ∧ bh.parentID = default
  below : st.header default = none
  best : st.bestIndex 0 = some ⟨0, genesis⟩
  rooted : ∀ id bh, st.header id = some bh → ∃ height, st.Member genesis ⟨height, id⟩

end Store

section Links

variable {genesis : BlockID} {l m : List ChainIndex}

/-- The same block at another height. -/
def ChainIndex.shift (k : UInt64) (i : ChainIndex) : ChainIndex := ⟨i.height + k, i.id⟩

theorem parentIndex_shift (k : UInt64) (h : st.parentIndex i = some j) : st.parentIndex (i.shift k) = some (j.shift k) := by
  obtain ⟨bh,hbh,rfl⟩ := Option.map_eq_some_iff.mp h
  simp only [Store.parentIndex,ChainIndex.shift,hbh,Option.map_some,Option.some.injEq,ChainIndex.mk.injEq,and_true]
  grind

theorem Down.shift (k : UInt64) (h : Down st.parentIndex i l z) :
    Down st.parentIndex (i.shift k) (l.map (ChainIndex.shift k)) (z.shift k) :=
  h.map fun _ _ => parentIndex_shift k

theorem height_down (h : Down st.parentIndex i l z) : z.height = i.height - UInt64.ofNat l.length := by
  induction h with
  | refl => simp
  | step hparent _ ih =>
    obtain ⟨bh,-,rfl⟩ := Option.map_eq_some_iff.mp hparent
    rw [ih,List.length_cons,UInt64.ofNat_add]
    grind

namespace Store.HeaderTree

theorem down_root (h : st.HeaderTree genesis) {height : UInt64} (hd : Down st.parentIndex ⟨height, genesis⟩ l z) :
    (l = [] ∧ z = ⟨height, genesis⟩) ∨ (l.length = 1 ∧ z.id = default) := by
  obtain ⟨bh,hbh,hparent⟩ := h.root
  cases hd with
  | refl => exact .inl ⟨rfl,rfl⟩
  | step hlink hrest =>
    rw [Store.parentIndex,hbh,Option.map_some,hparent] at hlink
    obtain rfl := Option.some.inj hlink
    obtain ⟨rfl,rfl⟩ := hrest.of_none (by simp [Store.parentIndex,h.below])
    exact .inr ⟨rfl,rfl⟩

theorem genesis_ne_default (h : st.HeaderTree genesis) : genesis ≠ default := by
  rintro rfl
  obtain ⟨bh,hbh,-⟩ := h.root
  rw [h.below] at hbh
  cases hbh

theorem down_member (h : st.HeaderTree genesis) (hi : st.Member genesis i) (hd : Down st.parentIndex i l z) :
    (st.Member genesis z ∧ i.height.toNat = z.height.toNat + l.length) ∨
      (z.id = default ∧ l.length = i.height.toNat + 1) := by
  obtain ⟨path,hpath,hlen⟩ := hi
  rcases Nat.le_total l.length path.length with hle | hle
  · obtain ⟨rest,rfl,hrest⟩ := hd.compare hpath hle
    rw [List.length_append] at hlen
    have hheight : z.height.toNat = rest.length := by
      have hlt := i.height.toNat_lt
      have hword : (UInt64.ofNat l.length).toNat = l.length := Word64.toNat_ofNat_of_lt (by omega)
      rw [height_down hd,UInt64.toNat_sub_of_le _ _ (UInt64.le_iff_toNat_le.mpr (by omega)),hword]
      omega
    exact .inl ⟨⟨rest,hrest,hheight.symm⟩,by omega⟩
  · obtain ⟨rest,rfl,hrest⟩ := hpath.compare hd hle
    rcases h.down_root hrest with ⟨rfl,rfl⟩ | ⟨hone,hz⟩
    · exact .inl ⟨⟨[],Down.refl _,rfl⟩,by simp [← hlen]⟩
    · exact .inr ⟨hz,by rw [List.length_append,hone,hlen]⟩

theorem id_ne_default (h : st.HeaderTree genesis) (hi : st.Member genesis i) : i.id ≠ default := by
  intro hid
  obtain ⟨path,hpath,-⟩ := hi
  obtain ⟨-,hroot⟩ := hpath.of_none (by simp [Store.parentIndex,hid,h.below])
  rw [← hroot] at hid
  exact h.genesis_ne_default hid

theorem length_eq (h : st.HeaderTree genesis) (hi : st.Member genesis i) (hz : st.Member genesis z)
    (hd : Down st.parentIndex i l z) : i.height.toNat = z.height.toNat + l.length := by
  rcases h.down_member hi hd with ⟨-,hlen⟩ | ⟨hid,-⟩
  · exact hlen
  · exact absurd hid (h.id_ne_default hz)

theorem member_unique (h : st.HeaderTree genesis) (hi : st.Member genesis i) (hj : st.Member genesis j)
    (hid : i.id = j.id) : i = j := by
  have hshift : i.shift (j.height - i.height) = j := by
    rw [ChainIndex.shift,hid]
    simp
  obtain ⟨path,hpath,hlen⟩ := hi
  have hdown := Down.shift (j.height - i.height) hpath
  rw [hshift] at hdown
  have hne := h.genesis_ne_default
  rcases h.down_member hj hdown with ⟨hmember,-⟩ | ⟨hbad,-⟩
  · obtain ⟨path',hpath',hlen'⟩ := hmember
    rcases h.down_root hpath' with ⟨rfl,hroot⟩ | ⟨-,hbad⟩
    · have hzero : (0 : UInt64) = 0 + (j.height - i.height) := congrArg ChainIndex.height hroot
      rw [← hshift,← show (0 : UInt64) = j.height - i.height by simpa using hzero]
      simp [ChainIndex.shift]
    · exact absurd hbad hne
  · exact absurd hbad hne

theorem eq_root (hi : st.Member genesis i) (hzero : i.height = 0) : i = ⟨0, genesis⟩ := by
  obtain ⟨path,hpath,hlen⟩ := hi
  rw [hzero] at hlen
  obtain rfl := List.length_eq_zero_iff.mp hlen
  cases hpath
  rfl

theorem parent_of_pos (h : st.HeaderTree genesis) (hi : st.Member genesis i) (hpos : 0 < i.height.toNat) :
    ∃ j, st.parentIndex i = some j ∧ st.Member genesis j ∧ i.height.toNat = j.height.toNat + 1 := by
  obtain ⟨path,hpath,hlen⟩ := hi
  cases hpath with
  | refl => exact absurd hpos (by simp)
  | step hlink hrest =>
    have hdown := Down.step hlink (Down.refl _)
    rcases h.down_member ⟨_,Down.step hlink hrest,hlen⟩ hdown with ⟨hj,hlen'⟩ | ⟨-,hbad⟩
    · exact ⟨_,hlink,hj,hlen'⟩
    · simp only [List.length_singleton] at hbad
      omega

theorem exists_down (h : st.HeaderTree genesis) (hi : st.Member genesis i) (hn : n ≤ i.height.toNat) :
    ∃ l j, Down st.parentIndex i l j ∧ l.length = n ∧ st.Member genesis j ∧ i.height.toNat = j.height.toNat + n := by
  obtain ⟨path,hpath,hlen⟩ := id hi
  rw [← List.take_append_drop n path] at hpath
  obtain ⟨j,hl,-⟩ := hpath.split
  have htake : (path.take n).length = n := by rw [List.length_take]; omega
  rcases h.down_member hi hl with ⟨hj,hheight⟩ | ⟨-,hbad⟩
  · exact ⟨_,j,hl,htake,hj,by rw [hheight,htake]⟩
  · omega

theorem header_of_member (h : st.HeaderTree genesis) (hi : st.Member genesis i) : ∃ bh, st.header i.id = some bh := by
  obtain ⟨path,hpath,-⟩ := hi
  cases hpath with
  | refl =>
    obtain ⟨bh,hbh,-⟩ := h.root
    exact ⟨bh,hbh⟩
  | step hlink _ =>
    obtain ⟨bh,hbh,-⟩ := Option.map_eq_some_iff.mp hlink
    exact ⟨bh,hbh⟩

theorem add (h : st.HeaderTree genesis) {st' : Store} {id : BlockID} {bh : BlockHeader} {parent : ChainIndex}
    (hbest : st'.bestIndex 0 = st.bestIndex 0) (hheader : ∀ i, st'.header i = if i = id then some bh else st.header i)
    (hold : ∀ bh', st.header id = some bh' → bh' = bh) (hid : id ≠ default) (hgenesis : id ≠ genesis)
    (hparent : st.Member genesis parent) (hlink : bh.parentID = parent.id) (hroom : parent.height.toNat + 1 < 2^64) :
    st'.HeaderTree genesis ∧ st'.Member genesis ⟨parent.height + 1, id⟩ ∧
      (∀ i, st.Member genesis i → st'.Member genesis i) ∧
      ∀ i, st'.Member genesis i → st.Member genesis i ∨ i = ⟨parent.height + 1, id⟩ := by
  have hlinks : ∀ a b, st.parentIndex a = some b → st'.parentIndex a = some b := by
    intro a b hab
    obtain ⟨bh',hbh',rfl⟩ := Option.map_eq_some_iff.mp hab
    rw [Store.parentIndex,hheader]
    split_ifs with ha
    · rw [ha] at hbh'
      rw [hold bh' hbh',Option.map_some]
    · rw [hbh',Option.map_some]
  have hmono : ∀ i, st.Member genesis i → st'.Member genesis i := fun i ⟨l,hl,hlen⟩ => ⟨l,hl.mono hlinks,hlen⟩
  have hnew : st'.Member genesis ⟨parent.height + 1,id⟩ := by
    obtain ⟨l,hl,hlen⟩ := hmono parent hparent
    refine ⟨⟨parent.height + 1,id⟩ :: l,Down.step ?_ hl,?_⟩
    · rw [Store.parentIndex,hheader,if_pos rfl,Option.map_some,hlink]
      congr 2
      grind
    · rw [List.length_cons,hlen]
      rw [UInt64.toNat_add,UInt64.toNat_one,Nat.mod_eq_of_lt hroom]
  have htree : st'.HeaderTree genesis := by
    refine ⟨?_,?_,hbest.trans h.best,?_⟩
    · obtain ⟨bh',hbh',hroot⟩ := h.root
      exact ⟨bh',by rw [hheader,if_neg hgenesis.symm,hbh'],hroot⟩
    · rw [hheader,if_neg hid.symm,h.below]
    · intro i bh' hbh'
      rw [hheader] at hbh'
      split_ifs at hbh' with hi
      · subst hi
        exact ⟨_,hnew⟩
      · obtain ⟨height,hi⟩ := h.rooted i bh' hbh'
        exact ⟨height,hmono _ hi⟩
  refine ⟨htree,hnew,hmono,fun i hi => ?_⟩
  by_cases hiid : i.id = id
  · exact .inr (htree.member_unique hi hnew hiid)
  · obtain ⟨bh',hbh'⟩ := htree.header_of_member hi
    rw [hheader,if_neg hiid] at hbh'
    obtain ⟨height,hmember⟩ := h.rooted i.id bh' hbh'
    rw [htree.member_unique hi (hmono _ hmember) rfl]
    exact .inl hmember

end Store.HeaderTree

end Links

section Walk

variable {genesis : BlockID} {maxLen : ℕ}

theorem rewind_eq_ok {len : ℕ} : rewind st maxLen len i = .ok j ↔ len ≤ maxLen ∧ st.parentIndex i = some j := by
  rw [rewind,bind_unit_eq_ok,rejectIf_eq_ok,not_lt,Store.parentIndex]
  cases st.header i.id with
  | none => simp
  | some bh => simp

/-- The first two loops of `reorgPath` go down `n` links, as far as the limit allows. -/
theorem descend_eq_ok {other : ℕ} {passed : List ChainIndex} {r : ChainIndex × List ChainIndex} :
    descend st maxLen other n i passed = .ok r ↔ ∃ l, Down st.parentIndex i l r.1 ∧ l.length = n ∧ r.2 = passed ++ l ∧
      (n = 0 ∨ passed.length + n + other ≤ maxLen) := by
  induction n generalizing i passed with
  | zero =>
    rw [descend,Except.ok.injEq]
    constructor
    · rintro rfl
      exact ⟨[],Down.refl i,rfl,(List.append_nil _).symm,.inl rfl⟩
    · rintro ⟨l,hl,hlen,hr,-⟩
      obtain rfl := List.length_eq_zero_iff.mp hlen
      obtain ⟨r₁,r₂⟩ := r
      cases hl
      rw [List.append_nil] at hr
      rw [← hr]
  | succ n ih =>
    rw [descend,bind_eq_ok]
    constructor
    · rintro ⟨j,hj,hrest⟩
      obtain ⟨hlen,hlink⟩ := rewind_eq_ok.mp hj
      obtain ⟨l,hl,hn,hr,hfits⟩ := ih.mp hrest
      refine ⟨i :: l,Down.step hlink hl,by rw [List.length_cons,hn],?_,.inr ?_⟩
      · rw [hr,List.append_assoc,List.singleton_append]
      · rw [List.length_append,List.length_singleton] at hfits
        omega
    · rintro ⟨l,hl,hn,hr,hfits⟩
      cases hl with
      | refl => cases hn
      | step hlink hrest =>
        refine ⟨_,rewind_eq_ok.mpr ⟨by omega,hlink⟩,ih.mpr ⟨_,hrest,Nat.succ.inj hn,?_,.inr ?_⟩⟩
        · rw [hr,List.append_assoc,List.singleton_append]
        · rw [List.length_append,List.length_singleton]
          omega

variable {r : List ChainIndex × List ChainIndex}

/-- The deepest member above which two blocks have nothing in common. -/
structure Meets (st : Store) (genesis : BlockID) (a b : ChainIndex) (l l' : List ChainIndex) (z : ChainIndex) : Prop where
  left : Down st.parentIndex a l z
  right : Down st.parentIndex b l' z
  member : st.Member genesis z
  lowest : ∀ y m m', st.Member genesis y → Down st.parentIndex a m y → Down st.parentIndex b m' y →
    ∃ k, Down st.parentIndex z k y

/-- Members of one height meet, and `meet` finds where. -/
theorem meet_members (h : st.HeaderTree genesis) (ha : st.Member genesis a) (hb : st.Member genesis b)
    (hheight : a.height = b.height) :
    ∃ l l' z, Meets st genesis a b l l' z ∧ l.length = l'.length ∧
      ∀ maxLen fuel revert apply, revert.length + apply.length + 2 * l.length ≤ maxLen → l.length ≤ fuel →
        meet st maxLen fuel a b revert apply = .ok (revert ++ l, apply ++ l') := by
  induction hn : a.height.toNat generalizing a b with
  | zero =>
    have hzero : a.height = 0 := UInt64.toNat_inj.mp hn
    obtain rfl := Store.HeaderTree.eq_root ha hzero
    obtain rfl := Store.HeaderTree.eq_root hb (hheight ▸ rfl)
    refine ⟨[],[],_,⟨Down.refl _,Down.refl _,ha,fun y m _ _ hm _ => ⟨m,hm⟩⟩,rfl,?_⟩
    intro maxLen fuel revert apply _ _
    cases fuel <;> simp [meet]
  | succ n ih =>
    by_cases heq : a = b
    · subst heq
      refine ⟨[],[],_,⟨Down.refl _,Down.refl _,ha,fun y m _ _ hm _ => ⟨m,hm⟩⟩,rfl,?_⟩
      intro maxLen fuel revert apply _ _
      cases fuel <;> simp [meet]
    · obtain ⟨a',halink,ha',haheight⟩ := h.parent_of_pos ha (by omega)
      obtain ⟨b',hblink,hb',hbheight⟩ := h.parent_of_pos hb (by rw [← hheight]; omega)
      have hsame : a'.height = b'.height := by
        rw [hheight] at haheight
        exact UInt64.toNat_inj.mp (by omega)
      obtain ⟨l,l',z,hmeets,hlen,hrun⟩ := ih ha' hb' hsame (by omega)
      refine ⟨a :: l,b :: l',z,⟨Down.step halink hmeets.left,Down.step hblink hmeets.right,hmeets.member,?_⟩,
        by rw [List.length_cons,List.length_cons,hlen],?_⟩
      · -- a common ancestor is neither of the two, since they have one height
        intro y m m' hy hm hm'
        have hlengths : m.length = m'.length := by
          have hm₁ := h.length_eq ha hy hm
          have hm₂ := h.length_eq hb hy hm'
          rw [hheight] at hm₁
          omega
        cases hm with
        | refl =>
          cases hm' with
          | refl => exact absurd rfl heq
          | step => cases hlengths
        | step hlink hrest =>
          cases hm' with
          | refl => cases hlengths
          | step hlink' hrest' =>
            obtain rfl := Option.some.inj (halink.symm.trans hlink)
            obtain rfl := Option.some.inj (hblink.symm.trans hlink')
            exact hmeets.lowest y _ _ hy hrest hrest'
      · intro maxLen fuel revert apply hfits hfuel
        rw [List.length_cons] at hfits hfuel
        cases fuel with
        | zero => omega
        | succ fuel =>
          rw [meet,if_neg heq]
          simp only [rewind_eq_ok.mpr ⟨show revert.length + 1 + (apply.length + 1) ≤ maxLen by omega,halink⟩,
            rewind_eq_ok.mpr ⟨show revert.length + 1 + (apply.length + 1) ≤ maxLen by omega,hblink⟩,ok_bind]
          rw [hrun maxLen fuel (revert ++ [a]) (apply ++ [b]) (by simp; omega) (by omega)]
          simp

/-- `reorgPath` once its first two loops are done. -/
theorem reorgPath_eq_ok :
    reorgPath st a b maxLen = .ok r ↔ ∃ a' l b' l',
      descend st maxLen 0 (a.height.toNat - b.height.toNat) a [] = .ok (a', l) ∧
      descend st maxLen l.length (b.height.toNat - a.height.toNat) b [] = .ok (b', l') ∧
      ((a' ≠ ⟨0, default⟩ ∧ ∃ r', meet st maxLen (maxLen + 1) a' b' l l' = .ok r' ∧ r = (r'.1, r'.2.reverse)) ∨
        (a' = ⟨0, default⟩ ∧ ∃ r', meet st maxLen (maxLen + 1) ((st.bestIndex 0).getD ⟨0, default⟩) b' l
          (l' ++ [(st.bestIndex 0).getD ⟨0, default⟩]) = .ok r' ∧ r = (r'.1, r'.2.reverse))) := by
  rw [reorgPath]
  simp only [bind_eq_ok,Prod.exists,pure_eq_ok]
  refine exists_congr fun a' => exists_congr fun l => ?_
  constructor
  · rintro ⟨hl,b',l',hl',r',hrun⟩
    refine ⟨b',l',hl,hl',?_⟩
    by_cases hzero : a' = ⟨0,default⟩
    · rw [if_pos hzero] at hrun
      obtain ⟨s',hmeet,rfl⟩ := hrun
      exact .inr ⟨hzero,_,_,hmeet,rfl⟩
    · rw [if_neg hzero] at hrun
      obtain ⟨s',hmeet,rfl⟩ := hrun
      exact .inl ⟨hzero,_,_,hmeet,rfl⟩
  · rintro ⟨b',l',hl,hl',⟨hzero,r',s',hmeet,rfl⟩ | ⟨hzero,r',s',hmeet,rfl⟩⟩
    · refine ⟨hl,b',l',hl',r',s',?_,rfl⟩
      rw [if_neg hzero]
      exact hmeet
    · refine ⟨hl,b',l',hl',r',s',?_,rfl⟩
      rw [if_pos hzero]
      exact hmeet

/-- Between two members, `reorgPath` is the path through their lowest common ancestor. -/
theorem reorgPath_members (h : st.HeaderTree genesis) (ha : st.Member genesis a) (hb : st.Member genesis b) :
    ∃ revert apply z, Meets st genesis a b revert apply z ∧
      ∀ maxLen, revert.length + apply.length ≤ maxLen → reorgPath st a b maxLen = .ok (revert, apply.reverse) := by
  obtain ⟨la,a',hla,hlaLen,ha',haHeight⟩ := h.exists_down ha (Nat.sub_le a.height.toNat (b.height.toNat))
  obtain ⟨lb,b',hlb,hlbLen,hb',hbHeight⟩ := h.exists_down hb (Nat.sub_le b.height.toNat (a.height.toNat))
  obtain ⟨l,l',z,hmeets,hlen,hrun⟩ := meet_members h ha' hb' (UInt64.toNat_inj.mp (by omega))
  refine ⟨la ++ l,lb ++ l',z,⟨hla.append hmeets.left,hlb.append hmeets.right,hmeets.member,?_⟩,?_⟩
  · -- a common ancestor is no higher than the lower of the two, so it lies below both cursors
    intro y m m' hy hm hm'
    have hmLen := h.length_eq ha hy hm
    have hmLen' := h.length_eq hb hy hm'
    obtain ⟨k,-,hk⟩ := hla.compare hm (by omega)
    obtain ⟨k',-,hk'⟩ := hlb.compare hm' (by omega)
    exact hmeets.lowest y k k' hy hk hk'
  · intro maxLen hfits
    rw [List.length_append,List.length_append] at hfits
    rw [reorgPath_eq_ok]
    refine ⟨a',la,b',lb,descend_eq_ok.mpr ⟨la,hla,hlaLen,rfl,.inr ?_⟩,
      descend_eq_ok.mpr ⟨lb,hlb,hlbLen,rfl,.inr ?_⟩,.inl ⟨?_,_,hrun maxLen _ la lb (by omega) (by omega),rfl⟩⟩
    · simp only [List.length_nil]
      omega
    · simp only [List.length_nil]
      omega
    · intro hzero
      exact h.id_ne_default ha' (congrArg ChainIndex.id hzero)

end Walk

section NewStore

variable {c : Crypto} {m : QdayManifest} {tip : State}

/-- A new store holds the genesis block, the state before it and the state after it. -/
theorem newDBStore_inv (h : newDBStore c m = .ok (st, tip)) :
    ∃ root cs au, m.network.genesisState = .ok root ∧ m.start c = .ok (cs, au) ∧ cs.index = ⟨0, m.genesis.id c⟩ ∧
      st = (((Store.empty.addState root).addBlock c m.genesis (some { transactions := [{}] })).addState cs).applyState cs ∧
      tip = cs.stored := by
  simp only [newDBStore,bind_eq_ok] at h
  obtain ⟨root,hroot,⟨cs,au⟩,hstart,h⟩ := h
  have hindex : cs.index = ⟨0,m.genesis.id c⟩ := by
    have happly := hstart
    rw [QdayManifest.start,hroot,ok_bind] at happly
    obtain ⟨ms,out,ha⟩ := applyBlock_inv happly
    exact ha.index
  set store := (((Store.empty.addState root).addBlock c m.genesis (some { transactions := [{}] })).addState cs).applyState cs
    with hstore
  have hbest : store.bestIndex store.height = some cs.index := by
    change ((AList.insert cs.index.height cs.index.id Store.empty.best).lookup cs.index.height).map _ = _
    rw [AList.lookup_insert]
    rfl
  have hstate : store.state cs.index.id = some cs.stored := by
    rw [hstore,Store.state_applyState,Store.state_addState_self]
  rw [hbest] at h
  simp only [hstate] at h
  obtain ⟨rfl,rfl⟩ := ok_pair h
  exact ⟨root,cs,au,hroot,hstart,hindex,rfl,rfl⟩

theorem newDBStore_header (h : newDBStore c m = .ok (st, tip)) (id : BlockID) :
    st.header id = if id = m.genesis.id c then some (m.genesis.header c).stored else none := by
  obtain ⟨root,cs,au,-,-,-,rfl,-⟩ := newDBStore_inv h
  rw [Store.header,Store.stored_applyState,Store.stored_addState,Store.stored_addBlock]
  split_ifs
  · rfl
  · rfl

theorem newDBStore_tree (h : newDBStore c m = .ok (st, tip)) (hne : m.genesis.id c ≠ default) :
    st.HeaderTree (m.genesis.id c) := by
  have hheader := newDBStore_header h
  refine ⟨⟨(m.genesis.header c).stored,by rw [hheader,if_pos rfl],rfl⟩,by rw [hheader,if_neg hne.symm],?_,?_⟩
  · obtain ⟨root,cs,au,-,-,hindex,rfl,-⟩ := newDBStore_inv h
    simp [Store.bestIndex,Store.applyState,hindex]
  · intro id bh hbh
    rw [hheader] at hbh
    split_ifs at hbh with hid
    subst hid
    exact ⟨0,[],Down.refl _,rfl⟩

end NewStore

section ReorgPath

variable {genesis : BlockID}

end ReorgPath

end QdayNode
