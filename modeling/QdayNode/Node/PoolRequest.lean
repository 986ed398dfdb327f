import QdayNode.Types.QdayAddress
import QdayNode.Types.CurrencyText
import QdayNode.Library.JsonText

/-!
# The digest of a pool payout request

A pool may send a request for a payout again.  Whether it is the same request is decided by a
digest: the hash of a JSON text that is built from what the request says, with addresses and
amounts in their canonical form and the payments in the order of their addresses.
-/
namespace QdayNode
open ByteString Outcome

structure PoolPayoutOutput where
  address : Bytes
  amountAtomic : Bytes

structure PoolPayoutRequest where
  requestID : Bytes
  fromAddress : Bytes
  expectedUnitAtomic : Bytes
  feeAtomic : Bytes
  outputs : List PoolPayoutOutput

structure ValidatedPoolPayoutOutput where
  address : QdayAddress
  amount : Currency
  deriving DecidableEq

structure ValidatedPoolPayout where
  requestID : Bytes
  fromAddress : Bytes
  expectedUnitAtomic : Bytes
  fee : Currency
  outputs : List ValidatedPoolPayoutOutput
  digest : Bytes

def maxPoolPayoutOutputs : ℕ := 127

/-- `fmt.Errorf(context + ": %w", err)`. -/
def wrapError {α : Type} (context : String) : Outcome α → Outcome α
  | .error (.error msg) => fail (context ++ ": " ++ msg)
  | x => x

def canonicalAtomic (setRat : Bytes → Option ℚ) (name : String) (value : Bytes) (allowZero : Bool) : Outcome Currency := do
  rejectIf (value = [] ∨ value.length > 80) (name ++ " must be a canonical atomic integer")
  match ← (parseCurrency setRat value).attempt with
  | none => fail (name ++ " must be a canonical atomic integer")
  | some amount =>
    rejectIf (amount.exactString ≠ value) (name ++ " must be a canonical atomic integer")
    rejectIf (allowZero = false ∧ amount.isZero = true) (name ++ " must be positive")
    pure amount

/-- The pass of the loop over the payments; the addresses in `outputs` are those of `seen`. -/
def poolOutputPass (c : Crypto) (setRat : Bytes → Option ℚ) (i : ℕ) (output : PoolPayoutOutput)
    (outputs : List ValidatedPoolPayoutOutput) : Outcome (List ValidatedPoolPayoutOutput) := do
  let address ← wrapError ("output " ++ toString i ++ " address") (parseQdayAddress c (Text.trimSpace output.address))
  rejectIf (∃ o ∈ outputs, o.address = address) ("output " ++ toString i ++ " repeats address")
  let amount ← canonicalAtomic setRat ("output " ++ toString i ++ " amountAtomic") output.amountAtomic false
  pure (outputs ++ [⟨address, amount⟩])

def addressOrder (o o' : ValidatedPoolPayoutOutput) : Prop := Text.AtMost o.address.text o'.address.text

instance : DecidableRel addressOrder := fun o o' => inferInstanceAs (Decidable (Text.AtMost o.address.text o'.address.text))

def poolOutputJSON (o : ValidatedPoolPayoutOutput) : Bytes :=
  123 :: (JsonText.key (ascii "address") ++ JsonText.string o.address.text ++ 44 ::
    (JsonText.key (ascii "amountAtomic") ++ JsonText.string o.amount.exactString ++ [125]))

def poolRequestJSON (requestID fromAddress expectedUnitAtomic feeAtomic : Bytes) (outputs : List ValidatedPoolPayoutOutput) : Bytes :=
  123 :: (JsonText.key (ascii "requestID") ++ JsonText.string requestID ++ 44 ::
    (JsonText.key (ascii "fromAddress") ++ JsonText.string fromAddress ++ 44 ::
      (JsonText.key (ascii "expectedUnitAtomic") ++ JsonText.string expectedUnitAtomic ++ 44 ::
        (JsonText.key (ascii "feeAtomic") ++ JsonText.string feeAtomic ++ 44 ::
          (JsonText.key (ascii "outputs") ++ JsonText.list poolOutputJSON outputs ++ [125])))))

/-- The loop over the runes of the name refuses the same names as one over the bytes. -/
def validatePoolPayoutRequest (c : Crypto) (setRat : Bytes → Option ℚ) (req : PoolPayoutRequest) : Outcome ValidatedPoolPayout := do
  let requestID := Text.trimSpace req.requestID
  rejectIf (requestID.length < 1 ∨ requestID.length > 128) "requestID must contain 1..128 printable ASCII characters"
  rejectIf (∃ b ∈ requestID, b < 0x21 ∨ b > 0x7e) "requestID must contain 1..128 printable ASCII characters"
  let source ← wrapError "invalid fromAddress" (parseQdayAddress c (Text.trimSpace req.fromAddress))
  let unit ← canonicalAtomic setRat "expectedUnitAtomic" req.expectedUnitAtomic false
  let fee ← canonicalAtomic setRat "feeAtomic" req.feeAtomic true
  rejectIf (req.outputs.length = 0 ∨ req.outputs.length > maxPoolPayoutOutputs) "outputs must contain 1..127 payments"
  let outputs ← foldIdx (poolOutputPass c setRat) req.outputs 0 []
  let outputs := outputs.insertionSort addressOrder
  let digest := c.sha256 (poolRequestJSON requestID source.text unit.exactString fee.exactString outputs)
  pure ⟨requestID, source.text, unit.exactString, fee, outputs, Text.hexEncode digest.val⟩

section Rendering

theorem prefixCode_poolOutputJSON : PrefixCode poolOutputJSON := by
  rintro ⟨address,amount⟩ ⟨address',amount'⟩ r r' _ _ heq
  simp only [poolOutputJSON,List.cons_append,List.append_assoc,List.nil_append,List.cons.injEq,true_and] at heq
  obtain ⟨haddress,heq⟩ := JsonText.prefixCode_string.apply (List.append_cancel_left heq)
  obtain ⟨hamount,heq⟩ := JsonText.prefixCode_string.apply (List.append_cancel_left (List.cons.inj heq).2)
  have hsame : address = address' := addressText_injective (by rw [← QdayAddress.text_eq,← QdayAddress.text_eq,haddress])
  have hsame' : amount = amount' := Currency.toNat_inj (Text.decimal_injective hamount)
  rw [hsame,hsame']
  exact ⟨rfl,(List.cons.inj heq).2⟩

theorem poolRequestJSON_inj {n n' s s' u u' f f' : Bytes} {outputs outputs' : List ValidatedPoolPayoutOutput}
    (h : poolRequestJSON n s u f outputs = poolRequestJSON n' s' u' f' outputs') :
    n = n' ∧ s = s' ∧ u = u' ∧ f = f' ∧ outputs = outputs' := by
  have hlist : PrefixCode (JsonText.list poolOutputJSON) :=
    JsonText.prefixCode_list prefixCode_poolOutputJSON fun o r t heq => absurd (List.cons.inj heq).1 (by decide)
  simp only [poolRequestJSON,List.append_assoc,List.cons.injEq,true_and] at h
  obtain ⟨hn,h⟩ := JsonText.prefixCode_string.apply (List.append_cancel_left h)
  obtain ⟨hs,h⟩ := JsonText.prefixCode_string.apply (List.append_cancel_left (List.cons.inj h).2)
  obtain ⟨hu,h⟩ := JsonText.prefixCode_string.apply (List.append_cancel_left (List.cons.inj h).2)
  obtain ⟨hf,h⟩ := JsonText.prefixCode_string.apply (List.append_cancel_left (List.cons.inj h).2)
  obtain ⟨houtputs,-⟩ := hlist.apply (List.append_cancel_left (List.cons.inj h).2)
  exact ⟨hn,hs,hu,hf,houtputs⟩

end Rendering

section Validation

variable {c : Crypto} {setRat : Bytes → Option ℚ}

theorem wrapError_eq_ok {α : Type} {context : String} {x : Outcome α} {a : α} : wrapError context x = .ok a ↔ x = .ok a := by
  match x with
  | .ok b => exact Iff.rfl
  | .error (.error msg) => exact iff_of_false (fun h => by cases h) (fun h => by cases h)
  | .error (.panic msg) => exact Iff.rfl

theorem canonicalAtomic_spec {name : String} {value : Bytes} {allowZero : Bool} {m : Currency}
    (h : canonicalAtomic setRat name value allowZero = .ok m) : parseCurrency setRat value = .ok m := by
  rw [canonicalAtomic,bind_unit_eq_ok,bind_eq_ok] at h
  obtain ⟨-,amount,hparse,h⟩ := h
  cases amount with
  | none => cases h
  | some amount =>
    dsimp only at h
    rw [bind_unit_eq_ok,bind_unit_eq_ok,pure_eq_ok] at h
    obtain ⟨-,-,rfl⟩ := h
    exact attempt_eq_some.mp hparse

/-- What one entry of the request says: pay this amount to this address. -/
def PoolPayoutOutput.Says (c : Crypto) (setRat : Bytes → Option ℚ) (output : PoolPayoutOutput) (o : ValidatedPoolPayoutOutput) : Prop :=
  parseQdayAddress c (Text.trimSpace output.address) = .ok o.address ∧ parseCurrency setRat output.amountAtomic = .ok o.amount

theorem PoolPayoutOutput.Says.unique {output : PoolPayoutOutput} {o o' : ValidatedPoolPayoutOutput} (h : output.Says c setRat o)
    (h' : output.Says c setRat o') : o = o' := by
  obtain ⟨address,amount⟩ := o
  obtain ⟨address',amount'⟩ := o'
  have haddress := Except.ok.inj (h.1.symm.trans h'.1)
  have hamount := Except.ok.inj (h.2.symm.trans h'.2)
  dsimp only at haddress hamount
  rw [haddress,hamount]

def PoolPayoutRequest.Pays (c : Crypto) (setRat : Bytes → Option ℚ) (req : PoolPayoutRequest) (a : QdayAddress) (m : Currency) : Prop :=
  ∃ output ∈ req.outputs, output.Says c setRat ⟨a, m⟩

def OutputsRead (c : Crypto) (setRat : Bytes → Option ℚ) (pre : List PoolPayoutOutput) (outputs : List ValidatedPoolPayoutOutput) : Prop :=
  List.Forall₂ (PoolPayoutOutput.Says c setRat) pre outputs ∧ (outputs.map ValidatedPoolPayoutOutput.address).Nodup

theorem poolOutputPass_keeps {i : ℕ} {pre : List PoolPayoutOutput} {output : PoolPayoutOutput} {outputs outputs' : List ValidatedPoolPayoutOutput}
    (hpre : OutputsRead c setRat pre outputs) (h : poolOutputPass c setRat i output outputs = .ok outputs') :
    OutputsRead c setRat (pre ++ [output]) outputs' := by
  rw [poolOutputPass,bind_eq_ok] at h
  obtain ⟨address,haddress,h⟩ := h
  rw [bind_unit_eq_ok,rejectIf_eq_ok,bind_eq_ok] at h
  obtain ⟨hnew,amount,hamount,h⟩ := h
  rw [pure_eq_ok] at h
  have hstated : output.Says c setRat ⟨address,amount⟩ := ⟨wrapError_eq_ok.mp haddress,canonicalAtomic_spec hamount⟩
  rw [← h]
  refine ⟨List.rel_append hpre.1 (.cons hstated .nil),?_⟩
  rw [List.map_append,List.map_singleton,List.nodup_append]
  refine ⟨hpre.2,List.nodup_singleton _,?_⟩
  intro a ha b hb heq
  obtain ⟨o,ho,rfl⟩ := List.mem_map.mp ha
  exact hnew ⟨o,ho,heq.trans (List.mem_singleton.mp hb)⟩

theorem OutputsRead.mem_iff {pre : List PoolPayoutOutput} {outputs : List ValidatedPoolPayoutOutput} (h : OutputsRead c setRat pre outputs)
    (o : ValidatedPoolPayoutOutput) : o ∈ outputs ↔ ∃ output ∈ pre, output.Says c setRat o := by
  obtain ⟨hread,-⟩ := h
  induction hread with
  | nil => simp
  | cons hhead _ ih =>
    rw [List.mem_cons,ih,List.exists_mem_cons_iff]
    refine or_congr_left ?_
    constructor
    · rintro rfl
      exact hhead
    · intro hstated
      exact hstated.unique hhead

def ValidatedPoolPayout.json (v : ValidatedPoolPayout) : Bytes :=
  poolRequestJSON v.requestID v.fromAddress v.expectedUnitAtomic v.fee.exactString v.outputs

/-- What an accepted request has become. -/
structure PoolPayoutRequest.Accepted (c : Crypto) (setRat : Bytes → Option ℚ) (req : PoolPayoutRequest) (v : ValidatedPoolPayout)
    (source : QdayAddress) (unit : Currency) : Prop where
  name : v.requestID = Text.trimSpace req.requestID
  parsed : parseQdayAddress c (Text.trimSpace req.fromAddress) = .ok source
  source_text : v.fromAddress = source.text
  parsed_unit : parseCurrency setRat req.expectedUnitAtomic = .ok unit
  unit_text : v.expectedUnitAtomic = unit.exactString
  parsed_fee : parseCurrency setRat req.feeAtomic = .ok v.fee
  sorted : v.outputs.Pairwise addressOrder
  distinct : (v.outputs.map ValidatedPoolPayoutOutput.address).Nodup
  payments : ∀ o, o ∈ v.outputs ↔ req.Pays c setRat o.address o.amount
  hashed : v.digest = Text.hexEncode (c.sha256 v.json).val

instance : Std.Total addressOrder := ⟨fun o o' => Text.AtMost.total _ _⟩

instance : IsTrans ValidatedPoolPayoutOutput addressOrder := ⟨fun _ _ _ h h' => Text.AtMost.trans h h'⟩

theorem validatePoolPayoutRequest_spec {req : PoolPayoutRequest} {v : ValidatedPoolPayout} (h : validatePoolPayoutRequest c setRat req = .ok v) :
    ∃ source unit, req.Accepted c setRat v source unit := by
  rw [validatePoolPayoutRequest,bind_unit_eq_ok,bind_unit_eq_ok,bind_eq_ok] at h
  obtain ⟨-,-,source,hsource,h⟩ := h
  rw [bind_eq_ok] at h
  obtain ⟨unit,hunit,h⟩ := h
  rw [bind_eq_ok] at h
  obtain ⟨fee,hfee,h⟩ := h
  rw [bind_unit_eq_ok,bind_eq_ok] at h
  obtain ⟨-,outputs,hrun,h⟩ := h
  rw [pure_eq_ok] at h
  have hread : OutputsRead c setRat req.outputs outputs := by
    refine foldIdx_keeps (P := OutputsRead c setRat) ?_ hrun ⟨.nil,List.nodup_nil⟩
    intro pre output post outs outs' _ hpre hpass
    exact poolOutputPass_keeps hpre hpass
  have hperm := List.perm_insertionSort addressOrder outputs
  subst h
  exact ⟨source,unit,
    { name := rfl
      parsed := wrapError_eq_ok.mp hsource
      source_text := rfl
      parsed_unit := canonicalAtomic_spec hunit
      unit_text := rfl
      parsed_fee := canonicalAtomic_spec hfee
      sorted := List.pairwise_insertionSort addressOrder outputs
      distinct := ((hperm.map ValidatedPoolPayoutOutput.address).nodup_iff).mpr hread.2
      payments := fun o => hperm.mem_iff.trans (hread.mem_iff o)
      hashed := rfl }⟩

theorem outputs_eq {l m : List ValidatedPoolPayoutOutput} (hl : l.Pairwise addressOrder) (hm : m.Pairwise addressOrder)
    (hl' : (l.map ValidatedPoolPayoutOutput.address).Nodup) (hm' : (m.map ValidatedPoolPayoutOutput.address).Nodup)
    (h : ∀ o, o ∈ l ↔ o ∈ m) : l = m := by
  have hperm := (List.perm_ext_iff_of_nodup hl'.of_map hm'.of_map).mpr h
  refine List.Perm.eq_of_pairwise ?_ hl hm hperm
  intro o o' ho ho' hle hge
  have htext := hle.antisymm hge
  rw [QdayAddress.text_eq,QdayAddress.text_eq] at htext
  exact List.inj_on_of_nodup_map hl' ho ((h o').mpr ho') (addressText_injective htext)

/-- Two accepted requests have one digest exactly if they say the same: the same name without the
space around it, the same source, unit and fee and the same payments. -/
theorem poolDigest_iff (c : Crypto) (setRat : Bytes → Option ℚ) {S : Set Bytes} (hS : Set.InjOn c.sha256 S)
    {req req' : PoolPayoutRequest} {v v' : ValidatedPoolPayout} (h : validatePoolPayoutRequest c setRat req = .ok v)
    (h' : validatePoolPayoutRequest c setRat req' = .ok v') (hv : v.json ∈ S) (hv' : v'.json ∈ S) :
    v.digest = v'.digest ↔
      Text.trimSpace req.requestID = Text.trimSpace req'.requestID ∧
      parseQdayAddress c (Text.trimSpace req.fromAddress) = parseQdayAddress c (Text.trimSpace req'.fromAddress) ∧
      parseCurrency setRat req.expectedUnitAtomic = parseCurrency setRat req'.expectedUnitAtomic ∧
      parseCurrency setRat req.feeAtomic = parseCurrency setRat req'.feeAtomic ∧
      ∀ a m, req.Pays c setRat a m ↔ req'.Pays c setRat a m := by
  obtain ⟨source,unit,hreq⟩ := validatePoolPayoutRequest_spec h
  obtain ⟨source',unit',hreq'⟩ := validatePoolPayoutRequest_spec h'
  have hdigest : v.digest = v'.digest ↔ v.json = v'.json := by
    rw [hreq.hashed,hreq'.hashed]
    constructor
    · intro heq
      exact hS hv hv' (Subtype.ext (Text.hexEncode_injective heq))
    · intro heq
      rw [heq]
  rw [hdigest,hreq.parsed,hreq'.parsed,hreq.parsed_unit,hreq'.parsed_unit,hreq.parsed_fee,hreq'.parsed_fee,← hreq.name,← hreq'.name,
    Except.ok.injEq,Except.ok.injEq,Except.ok.injEq]
  constructor
  · intro heq
    obtain ⟨hname,hsource,hunit,hfee,houtputs⟩ := poolRequestJSON_inj heq
    rw [hreq.source_text,hreq'.source_text,QdayAddress.text_eq,QdayAddress.text_eq] at hsource
    rw [hreq.unit_text,hreq'.unit_text] at hunit
    refine ⟨hname,addressText_injective hsource,Currency.toNat_inj (Text.decimal_injective hunit),
      Currency.toNat_inj (Text.decimal_injective hfee),?_⟩
    intro a m
    rw [← hreq.payments ⟨a,m⟩,← hreq'.payments ⟨a,m⟩,houtputs]
  · rintro ⟨hname,hsource,hunit,hfee,hpays⟩
    have houtputs : v.outputs = v'.outputs := by
      refine outputs_eq hreq.sorted hreq'.sorted hreq.distinct hreq'.distinct ?_
      intro o
      rw [hreq.payments,hreq'.payments,hpays]
    rw [ValidatedPoolPayout.json,ValidatedPoolPayout.json,hname,hreq.source_text,hreq'.source_text,hsource,hreq.unit_text,hreq'.unit_text,
      hunit,hfee,houtputs]

end Validation

section Sample

def samplePoolKeys : QdayKeys := ⟨⟨List.replicate 32 1, by decide⟩, ⟨List.replicate 32 2, by decide⟩⟩

/-- The older text of an address, with its two keys. -/
def legacyText (c : Crypto) (k : QdayKeys) : Bytes :=
  ascii "qday1" ++ Text.hexEncode (k.bytes ++ (c.sha256 (ascii "QDAY/address/v1" ++ k.bytes)).val.take 4)

def sampleMiner (n : UInt8) : QdayAddress := ⟨List.replicate 32 n, by rw [List.length_replicate]⟩

def samplePoolRequest : PoolPayoutRequest where
  requestID := ascii " batch-7"
  fromAddress := legacyText sampleCrypto samplePoolKeys
  expectedUnitAtomic := ascii "1000"
  feeAtomic := ascii "0"
  outputs := [⟨(sampleMiner 1).text, ascii "5"⟩, ⟨(sampleMiner 2).text, ascii "7"⟩]

def samplePoolRetry : PoolPayoutRequest where
  requestID := ascii "batch-7"
  fromAddress := 32 :: Text.upper (samplePoolKeys.address sampleCrypto).text
  expectedUnitAtomic := ascii "1000"
  feeAtomic := ascii "0"
  outputs := [⟨Text.upper (sampleMiner 2).text, ascii "7"⟩, ⟨(sampleMiner 1).text ++ [10], ascii "5"⟩]

theorem poolDigest_iff_sample : ∃ v v', validatePoolPayoutRequest sampleCrypto (fun _ => none) samplePoolRequest = .ok v ∧
    validatePoolPayoutRequest sampleCrypto (fun _ => none) samplePoolRetry = .ok v' ∧
    ∀ a m, samplePoolRequest.Pays sampleCrypto (fun _ => none) a m ↔ samplePoolRetry.Pays sampleCrypto (fun _ => none) a m := by
  obtain ⟨⟨v,v'⟩,hrun,hsame⟩ := exists_of_holds
    (x := do
      let v ← validatePoolPayoutRequest sampleCrypto (fun _ => none) samplePoolRequest
      let v' ← validatePoolPayoutRequest sampleCrypto (fun _ => none) samplePoolRetry
      pure (v, v'))
    (p := fun r => decide (r.1.json = r.2.json ∧ r.1.digest = r.2.digest)) (by decide +kernel)
  simp only [bind_eq_ok,pure_eq_ok,Prod.mk.injEq] at hrun
  obtain ⟨w,hw,w',hw',rfl,rfl⟩ := hrun
  obtain ⟨hjson,hdigest⟩ := of_decide_eq_true hsame
  have hstated := (poolDigest_iff sampleCrypto (fun _ => none) (Set.injOn_singleton sampleCrypto.sha256 w.json) hw hw' rfl hjson.symm).mp hdigest
  exact ⟨w,w',hw,hw',hstated.2.2.2.2⟩

end Sample

end QdayNode
