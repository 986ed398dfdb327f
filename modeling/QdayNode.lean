import QdayNode.Consensus.CanaryProof
import QdayNode.Consensus.Semantics
import QdayNode.Node.MiningTemplate
import QdayNode.Syncer.Checkpoint
import QdayNode.Consensus.Decay
import QdayNode.Syncer.Relay
import QdayNode.Manager.Heavier
import QdayNode.Manager.Settled
import QdayNode.Types.PolicyHiding
import QdayNode.Consensus.MultiproofSafety
import QdayNode.Syncer.RelayPlan
import QdayNode.Node.Rebroadcast
import QdayNode.Node.PendingProofs
import QdayNode.Manager.UpdatedSet
import QdayNode.Wallet.Seed
import QdayNode.Node.Amount
import QdayNode.Node.PoolRequest
import QdayNode.Manager.CacheDB
import QdayNode.Syncer.Inflight
import QdayNode.Types.Buffering
import QdayNode.Types.ChainIndexText
import QdayNode.Types.CurrencyArith
