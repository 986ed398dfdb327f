import QdayNode.Types.Decoding

/-!
# The rebroadcast table

The service of `node/qday` keeps the transactions it has sent until they are settled.
A pass of `rebroadcastPending` works on a copy of the table for a long time and writes
back one entry at a time, while `rememberBroadcast` and `ensurePoolPayout` write to the
table itself.  What the chain manager answers to the calls in between is a parameter.
-/
namespace QdayNode
open ByteString

section Service

/-- `pendingBroadcast`; a set that is not known to be confirmed has the zero index. -/
structure PendingBroadcast where
  basis : ChainIndex
  broadcastedAt : Time
  transactions : List V2Transaction
  confirmedAt : ChainIndex

/-- `Service.rebroadcasts`. -/
abbrev RebroadcastTable := TransactionID → Option PendingBroadcast

def maxRebroadcastPeriod : Duration := 48 * 3600 * 1000000000

/-- What the chain manager answers while one set is looked at. -/
structure ChainAnswers where
  /-- `BestIndex` at the height where the set was confirmed. -/
  best : Option ChainIndex
  /-- `updatePendingProofs` from the basis of the set to the tip. -/
  updated : Except String (List V2Transaction)
  /-- Whether `AddV2PoolTransactions` takes the updated set. -/
  accepted : Bool

/-- A write to one entry: `none` deletes it. -/
abbrev TableWrite := TransactionID × Option PendingBroadcast

def RebroadcastTable.write (table : RebroadcastTable) : Option TableWrite → RebroadcastTable
  | none => table
  | some (id, entry) => Function.update table id entry

def rememberBroadcast (c : Crypto) (basis : ChainIndex) (now : Time) (txns : List V2Transaction) : Option TableWrite :=
  txns.getLast?.map fun txn => (txn.id c, some ⟨basis, now, txns, ⟨0, default⟩⟩)

/-- The body of the loop of `rebroadcastPending` for the copy `set`: what is written back, if anything. -/
def rebroadcastSet (tip : ChainIndex) (now : Time) (id : TransactionID) (set : PendingBroadcast) (answers : ChainAnswers) :
    Option TableWrite :=
  if now.sub set.broadcastedAt > maxRebroadcastPeriod then some (id, none)
  else if set.confirmedAt ≠ ⟨0, default⟩ ∧ answers.best = some set.confirmedAt then none
  else
    match answers.updated with
    | .error _ => none
    | .ok [] => some (id, some { set with confirmedAt := tip })
    | .ok updated =>
      if answers.accepted then
        some (id, some { set with basis := tip, transactions := updated, confirmedAt := ⟨0, default⟩ })
      else none

end Service

section Payouts

inductive PayoutStatus
  | queued
  | confirming
  | confirmed
  deriving DecidableEq, Repr

structure PoolPayoutRecord where
  requestID : String
  digest : Hash256
  basis : ChainIndex
  transactionID : TransactionID
  transaction : Bytes
  outputs : ℕ
  status : PayoutStatus
  confirmedAt : ChainIndex
  createdAt : Time
  deriving DecidableEq

def poolPayoutFinality : UInt64 := 6

def decodePendingTransaction (b : Bytes) : Outcome V2Transaction := do
  Outcome.rejectIf (b.length = 0 ∨ b.length > 4 * 2^20) "invalid pending transaction size"
  let (txn, _) ← V2Transaction.decode.run b
  Outcome.rejectIf (b ≠ txn.encode) "non-canonical pending transaction"
  return txn

/-- What `ensurePoolPayout` comes to do. -/
inductive PayoutStep
  /-- The record is returned as it is. -/
  | rest
  /-- The payment is final: its entry is removed from the rebroadcast table. -/
  | finalize
  | failed (msg : String)
  | confirming
  | resend (updated : List V2Transaction)

def PoolPayoutRecord.next (record : PoolPayoutRecord) (tip : ChainIndex) (answers : ChainAnswers) : PayoutStep :=
  if record.status = .confirmed then .rest
  else if record.confirmedAt ≠ ⟨0, default⟩ ∧ answers.best = some record.confirmedAt then
    if tip.height < record.confirmedAt.height + poolPayoutFinality - 1 then .rest else .finalize
  else
    match decodePendingTransaction record.transaction with
    | .error _ => .failed "invalid pending transaction"
    | .ok _ =>
      match answers.updated with
      | .error msg => .failed msg
      | .ok [] => .confirming
      | .ok updated => if answers.accepted then .resend updated else .failed "transaction rejected"

def PoolPayoutRecord.tableWrite (c : Crypto) (record : PoolPayoutRecord) (tip : ChainIndex) (now : Time)
    (answers : ChainAnswers) : Option TableWrite :=
  match record.next tip answers with
  | .finalize => some (record.transactionID, none)
  | .resend updated => rememberBroadcast c tip now updated
  | _ => none

end Payouts

section Pass

/-- What happens to the table during a pass: the pass comes to a set, or another call writes to the table. -/
inductive TableEvent
  | turn (id : TransactionID) (answers : ChainAnswers)
  | remember (basis : ChainIndex) (now : Time) (txns : List V2Transaction)
  | ensure (record : PoolPayoutRecord) (tip : ChainIndex) (now : Time) (answers : ChainAnswers)

/-- A pass that is under way: the table, and the copies it has yet to come to. -/
structure PassState where
  table : RebroadcastTable
  sets : RebroadcastTable

def TableEvent.callWrite (c : Crypto) : TableEvent → Option TableWrite
  | .turn _ _ => none
  | .remember basis now txns => rememberBroadcast c basis now txns
  | .ensure record tip now answers => record.tableWrite c tip now answers

variable (c : Crypto) (tip : ChainIndex) (now : Time)

/-- One event; the sets are visited in any order, each of them once. -/
def PassState.step (st : PassState) : TableEvent → Option PassState
  | .turn id answers => (st.sets id).map fun set =>
    ⟨st.table.write (rebroadcastSet tip now id set answers), Function.update st.sets id none⟩
  | e => some { st with table := st.table.write (e.callWrite c) }

variable {c tip now} {table : RebroadcastTable} {events : List TableEvent} {st st' : PassState} {id : TransactionID}

end Pass

end QdayNode
