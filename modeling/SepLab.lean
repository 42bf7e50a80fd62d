import SepLab.Lib.LeaderCompleteness
import SepLab.Raft.Applying
import SepLab.Raft.Durability
import SepLab.Raft.Delivery
import SepLab.Raft.FastBackup
import SepLab.Idempotency.SameMoney
import SepLab.Idempotency.SingleTxn
import SepLab.Outbox.SkipLocked
import SepLab.Fencing.Lease
import SepLab.Fencing.Safety
import SepLab.Lib.Keyset
import SepLab.Pagination.Pages
import SepLab.Replication.Session
import SepLab.Lib.SlidingWindow
import SepLab.Metastable.App
import SepLab.Orders.IdempotencyKey
import SepLab.Resilience.RetryBudget
import SepLab.Resilience.LatencyBreaker
import SepLab.Lib.Semaphore
import SepLab.Shedding.Admission
import SepLab.Shedding.Permits
import SepLab.Shedding.Lab
import SepLab.Shedding.Capacity
import SepLab.Lib.Credit
import SepLab.Retry.Policy
import SepLab.Retry.Amplification
import SepLab.Retry.Deadline
import SepLab.Pkce.AuthServer
import SepLab.Pkce.CodeSafety
import SepLab.Pkce.Redirect
import SepLab.Outbox.KafkaConsumer
import SepLab.Outbox.KafkaRelay
import SepLab.SlowNotAbsent.PhaseD
import SepLab.SlowNotAbsent.Pool
import SepLab.IdempotencyRace.Agree
import SepLab.CorrelationIds.PinnedPool
import SepLab.Lib.EventLoop
import SepLab.Metastable.NodeDatabase
import SepLab.Shedding.NodeAdmission
import SepLab.Lib.Placement
import SepLab.Metastable.Client
import SepLab.Metastable.Settlement
import SepLab.Lib.Potential
import SepLab.Metastable.AtRest
import SepLab.Lib.EachAfter
import SepLab.ClocksLie.Writers
import SepLab.ClocksLie.Statements
import SepLab.ClocksLie.Verdicts
import SepLab.Raft.FastBackup
import SepLab.Lib.Digits
import SepLab.Lib.IpText
import SepLab.Lib.IpParser
import SepLab.Ssrf.Address
import SepLab.Ssrf.Classify
import SepLab.Lib.Delimited
import SepLab.Ssrf.HostOf
import SepLab.Money.SplitEvenly
import SepLab.Pagination.Ties
import SepLab.Container.CpuBudget
import SepLab.Resilience.RetryWindow
import SepLab.Lib.Tally
import SepLab.Cardinality.Series
import SepLab.Cardinality.Counter
import SepLab.Cardinality.GoCounter
import SepLab.Pricing.Traceparent
import SepLab.Pricing.Tail
import SepLab.Fencing.StepDown
import SepLab.Lib.LastHit
import SepLab.Replication.Checker
import SepLab.Lib.TrailingSum
import SepLab.BurnRate.Rules
import SepLab.BurnRate.DetectionGap
import SepLab.Lib.ProgLog
import SepLab.Retry.EdgeOnly
import SepLab.Resilience.CircuitBreaker
import SepLab.Fencing.SentTwice
import SepLab.Hedging.Budget
import SepLab.Lib.Custody
import SepLab.SlowNotAbsent.Identity
import SepLab.ConnectionPool.HandRolled
import SepLab.Shedding.Threads
import SepLab.Lib.JsonText
import SepLab.Lib.JsonStringify
import SepLab.Idempotency.Fingerprint
import SepLab.Lib.OrderStatistic
import SepLab.RealP99.Histogram
import SepLab.Lib.StableSort
import SepLab.Probes.OrderPage
import SepLab.Lib.BitString
import SepLab.Jwt.Base64Url
import SepLab.Lib.PairCounts
import SepLab.Evaluation.Agreement
import SepLab.Lib.HalfEven
import SepLab.Lib.Grouping
import SepLab.Pipelines.Features
import SepLab.Raft.MatchIndex
import SepLab.Raft.NextIndex
import SepLab.Lib.Encoding
import SepLab.CorrelationIds.Traceparent
import SepLab.Lib.Regex
import SepLab.Lib.Calendar
import SepLab.Lib.KeyOrder
import SepLab.Postmortem.LogLines
import SepLab.Postmortem.Timeline
import SepLab.Lib.Broadcast
import SepLab.Raft.Tickets
import SepLab.Raft.Journal
import SepLab.Lib.HighWater
import SepLab.Outbox.HighWaterMark
import SepLab.Outbox.Atomic
import SepLab.Outbox.Consumer
import SepLab.Outbox.Pipeline
import SepLab.Lib.LockOrder
import SepLab.Locking.Transfers
import SepLab.Locking.Deadlock
import SepLab.Lib.KeysetOverlap
import SepLab.Pagination.Inclusive
import SepLab.Lib.ProgRun
import SepLab.DataLoader.Loader
import SepLab.DataLoader.Variants
import SepLab.Lib.Isolation
import SepLab.Lib.IsolationEnds
import SepLab.IsolationLevels.WriteSkew
import SepLab.IsolationLevels.LostUpdate
import SepLab.IsolationLevels.Ends
import SepLab.CorrelationIds.Context
import SepLab.CorrelationIds.HandOver
import SepLab.CorrelationIds.StaleContext
