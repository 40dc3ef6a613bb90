import SegmentedCache.Word
import SegmentedCache.Fault
import SegmentedCache.Text.Record
import SegmentedCache.Table
import SegmentedCache.Request
import SegmentedCache.Params
import SegmentedCache.Event
import SegmentedCache.Objects
import SegmentedCache.Recency
import SegmentedCache.StripePool
import SegmentedCache.Index.Hash
import SegmentedCache.Index.Address
import SegmentedCache.Index.Basic
import SegmentedCache.Index.Command
import SegmentedCache.Index.Call
import SegmentedCache.Store
import SegmentedCache.Action
import SegmentedCache.Counters.Basic
import SegmentedCache.Counters.Report
import SegmentedCache.Policy
import SegmentedCache.Operation
import SegmentedCache.Lru.Basic
import SegmentedCache.Lru.Operations
import SegmentedCache.Segmented.Basic
import SegmentedCache.Segmented.Cooling
import SegmentedCache.Segmented.Operations
import SegmentedCache.Segmented.Creation
import SegmentedCache.Tier.Basic
import SegmentedCache.Tier.Blueprint
import SegmentedCache.Proofs.Construction
import SegmentedCache.Proofs.Counting
import SegmentedCache.Proofs.Demand
import SegmentedCache.Proofs.Headroom
import SegmentedCache.Proofs.Losses
import SegmentedCache.Proofs.Outcome
import SegmentedCache.Proofs.Runs
import SegmentedCache.Proofs.Stripes
import SegmentedCache.Proofs.Recency.Account
import SegmentedCache.Proofs.Recency.Links
import SegmentedCache.Proofs.Recency.Sequence
import SegmentedCache.Proofs.Index.Arrivals
import SegmentedCache.Proofs.Index.Buckets
import SegmentedCache.Proofs.Index.Directory
import SegmentedCache.Proofs.Index.Entries
import SegmentedCache.Proofs.Index.Lanes
import SegmentedCache.Proofs.Index.Writes
import SegmentedCache.Proofs.Lru.Admission
import SegmentedCache.Proofs.Lru.Coherence
import SegmentedCache.Proofs.Lru.Conserving
import SegmentedCache.Proofs.Lru.Creation
import SegmentedCache.Proofs.Lru.Eviction
import SegmentedCache.Proofs.Lru.Family
import SegmentedCache.Proofs.Lru.Inclusion
import SegmentedCache.Proofs.Lru.Lawful
import SegmentedCache.Proofs.Lru.Ledger
import SegmentedCache.Proofs.Lru.Lookup
import SegmentedCache.Proofs.Lru.Metered
import SegmentedCache.Proofs.Lru.Plain
import SegmentedCache.Proofs.Lru.Refinement
import SegmentedCache.Proofs.Lru.Settled
import SegmentedCache.Proofs.Lru.Shedding
import SegmentedCache.Proofs.Lru.Tidy
import SegmentedCache.Proofs.Lru.Working
import SegmentedCache.Proofs.Policy.Calm
import SegmentedCache.Proofs.Policy.Carrying
import SegmentedCache.Proofs.Policy.Conserving
import SegmentedCache.Proofs.Policy.Counted
import SegmentedCache.Proofs.Policy.Dating
import SegmentedCache.Proofs.Policy.Lawful
import SegmentedCache.Proofs.Policy.Peeking
import SegmentedCache.Proofs.Policy.Promise
import SegmentedCache.Proofs.Policy.Screening
import SegmentedCache.Proofs.Policy.Settings
import SegmentedCache.Proofs.Segmented.Carrying
import SegmentedCache.Proofs.Segmented.Cascade
import SegmentedCache.Proofs.Segmented.Chilling
import SegmentedCache.Proofs.Segmented.Conserving
import SegmentedCache.Proofs.Segmented.Creation
import SegmentedCache.Proofs.Segmented.Credit
import SegmentedCache.Proofs.Segmented.Demotions
import SegmentedCache.Proofs.Segmented.Descent
import SegmentedCache.Proofs.Segmented.Fates
import SegmentedCache.Proofs.Segmented.Histories
import SegmentedCache.Proofs.Segmented.Insertion
import SegmentedCache.Proofs.Segmented.Lawful
import SegmentedCache.Proofs.Segmented.Ledger
import SegmentedCache.Proofs.Segmented.Levels
import SegmentedCache.Proofs.Segmented.Load
import SegmentedCache.Proofs.Segmented.Misses
import SegmentedCache.Proofs.Segmented.Order
import SegmentedCache.Proofs.Segmented.Passes
import SegmentedCache.Proofs.Segmented.Peeking
import SegmentedCache.Proofs.Segmented.Placement
import SegmentedCache.Proofs.Segmented.Promise
import SegmentedCache.Proofs.Segmented.Promotion
import SegmentedCache.Proofs.Segmented.Screening
import SegmentedCache.Proofs.Segmented.Settings
import SegmentedCache.Proofs.Segmented.Single
import SegmentedCache.Proofs.Segmented.Sliding
import SegmentedCache.Proofs.Segmented.Tally
import SegmentedCache.Proofs.Segmented.Working
import SegmentedCache.Proofs.Tier.Building
import SegmentedCache.Proofs.Tier.Carrying
import SegmentedCache.Proofs.Tier.Conserving
import SegmentedCache.Proofs.Tier.Dating
import SegmentedCache.Proofs.Tier.Demand
import SegmentedCache.Proofs.Tier.Division
import SegmentedCache.Proofs.Tier.Histories
import SegmentedCache.Proofs.Tier.Lawful
import SegmentedCache.Proofs.Tier.Ledger
import SegmentedCache.Proofs.Tier.Oversized
import SegmentedCache.Proofs.Tier.Peeking
import SegmentedCache.Proofs.Tier.Promise
import SegmentedCache.Proofs.Tier.Screening
import SegmentedCache.Proofs.World.Arithmetic
import SegmentedCache.Proofs.World.Basic
import SegmentedCache.Proofs.World.Coherence
import SegmentedCache.Proofs.World.Copies
import SegmentedCache.Proofs.World.Demotions
import SegmentedCache.Proofs.World.Moves
import SegmentedCache.Proofs.World.Releases
import SegmentedCache.Proofs.World.Residency
import SegmentedCache.Proofs.World.Victims
