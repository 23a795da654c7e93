import Iggy.Consensus.MergeUntrusted
import Iggy.Consensus.Ack
import Iggy.Shard.Reconciler
import Iggy.Shard.SuffixBuild
import Iggy.Metadata.OwnershipFencing
import Iggy.Partitions.OffsetMinting
import Iggy.Partitions.FenceSafety
import Iggy.Journal.TornTail
import Iggy.Metadata.ReplayEquality
import Iggy.Metadata.Rebalance
import Iggy.Partitions.TransferArtifact
import Iggy.Metadata.FeedCompleteness
import Iggy.Consensus.ChainReplication
import Iggy.Consensus.RepairEvidence
import Iggy.Consensus.PrepareRollback
import Iggy.Consensus.HistoryRecovery
import Iggy.Consensus.VoteOrder
import Iggy.Consensus.MergeShape
import Iggy.Kafka.RecordRoundTrip
import Iggy.Partitions.SealedLookup
import Iggy.Partitions.ResidentExact
import Iggy.Partitions.RepairFloor
import Iggy.Partitions.PersistedSegments
import Iggy.Shard.DeferredParking
import Iggy.Partitions.OffsetCapacity
import Iggy.Consensus.DurableView
import Iggy.Consensus.TableRestarts
