import SegmentedCache.Request
import SegmentedCache.Text.Record

/-!
# Counters

Every cache counts what happens to it. The core counters are the same for all
policies; each policy adds its own. Requests, hits and expired lookups are
counted once per request of the workload; insertions and evictions whenever an
object enters the cache or leaves it to make room.

A counter that leaves the range of a word is a fault.
-/
namespace SegmentedCache

structure Counters where
  requests : UInt64 := 0
  hits : UInt64 := 0
  expired : UInt64 := 0
  bytesRequested : Bytes := 0
  bytesServed : Bytes := 0
  bytesWritten : Bytes := 0
  insertions : UInt64 := 0
  evictions : UInt64 := 0
  capacity : Bytes := 0
deriving DecidableEq, Repr, Inhabited

namespace Counters

def recordHit (c : Counters) (size : Bytes) : Except Fault Counters := do
  let requests ← Word.add c.requests 1
  let hits ← Word.add c.hits 1
  let bytesRequested ← Word.add c.bytesRequested size
  let bytesServed ← Word.add c.bytesServed size
  pure { c with requests, hits, bytesRequested, bytesServed }

def recordMiss (c : Counters) (size : Bytes) : Except Fault Counters := do
  let requests ← Word.add c.requests 1
  let bytesRequested ← Word.add c.bytesRequested size
  pure { c with requests, bytesRequested }

/-- A lookup that finds an expired object is a miss as well. -/
def recordExpired (c : Counters) (size : Bytes) : Except Fault Counters := do
  let c ← c.recordMiss size
  let expired ← Word.add c.expired 1
  pure { c with expired }

/-- Counts a request by its outcome. -/
def recordLookup (c : Counters) (size : Bytes) : Lookup → Except Fault Counters
  | .hit => c.recordHit size
  | .miss => c.recordMiss size
  | .expired => c.recordExpired size

def recordInsertion (c : Counters) (size : Bytes) : Except Fault Counters := do
  let insertions ← Word.add c.insertions 1
  let bytesWritten ← Word.add c.bytesWritten size
  pure { c with insertions, bytesWritten }

def recordEviction (c : Counters) : Except Fault Counters := do
  let evictions ← Word.add c.evictions 1
  pure { c with evictions }

/-- The requests that were no hits. -/
def misses (c : Counters) : Except Fault UInt64 := Word.sub c.requests c.hits

def text (c : Counters) : String :=
  Text.record "CoreCacheMetrics" [
    ("requests", toString c.requests),
    ("cache_hits", toString c.hits),
    ("expired", toString c.expired),
    ("total_bytes_requested", toString c.bytesRequested),
    ("bytes_served_from_cache", toString c.bytesServed),
    ("bytes_written_to_cache", toString c.bytesWritten),
    ("insertions", toString c.insertions),
    ("evictions", toString c.evictions),
    ("max_cache_size_bytes", toString c.capacity)]

end Counters

/-- The counters of a least-recently-used cache. -/
structure LruCounters where
  core : Counters := {}
  removals : UInt64 := 0
  expiredRemovals : UInt64 := 0
deriving DecidableEq, Repr, Inhabited

namespace LruCounters

/-- The name of the policy that these counters belong to. -/
def policyName : String := "LRU"

def ofCapacity (capacity : Bytes) : LruCounters := { core := { capacity } }

def onCore (f : Counters → Except Fault Counters) (c : LruCounters) : Except Fault LruCounters := do
  let core ← f c.core
  pure { c with core }

def recordRemoval (c : LruCounters) : Except Fault LruCounters := do
  let removals ← Word.add c.removals 1
  pure { c with removals }

def recordExpiredRemoval (c : LruCounters) : Except Fault LruCounters := do
  let expiredRemovals ← Word.add c.expiredRemovals 1
  pure { c with expiredRemovals }

def text (c : LruCounters) : String :=
  Text.record "LruCacheMetrics" [
    ("core", c.core.text),
    ("removals", toString c.removals),
    ("expired_removals", toString c.expiredRemovals)]

end LruCounters

/-- The counters of a segmented cache. -/
structure SegmentedCounters where
  core : Counters := {}
  segmentHits : List UInt64 := []
  promotions : UInt64 := 0
  demotions : UInt64 := 0
  coolingDrops : UInt64 := 0
  removals : UInt64 := 0
deriving DecidableEq, Repr, Inhabited

namespace SegmentedCounters

/-- The name of the policy that these counters belong to. -/
def policyName : String := "SLRU"

def ofCapacity (capacity : Bytes) (segments : Nat) : SegmentedCounters :=
  { core := { capacity }, segmentHits := List.replicate segments 0 }

def onCore (f : Counters → Except Fault Counters) (c : SegmentedCounters) :
    Except Fault SegmentedCounters := do
  let core ← f c.core
  pure { c with core }

/-- Counts a hit in segment `i`; a segment that does not exist has no count of
its own. -/
def recordSegmentHit (c : SegmentedCounters) (i : Nat) (size : Bytes) :
    Except Fault SegmentedCounters := do
  let core ← c.core.recordHit size
  match c.segmentHits[i]? with
  | none => pure { c with core }
  | some hits =>
    let hits ← Word.add hits 1
    pure { c with core, segmentHits := c.segmentHits.set i hits }

def recordPromotion (c : SegmentedCounters) : Except Fault SegmentedCounters := do
  let promotions ← Word.add c.promotions 1
  pure { c with promotions }

def recordDemotion (c : SegmentedCounters) : Except Fault SegmentedCounters := do
  let demotions ← Word.add c.demotions 1
  pure { c with demotions }

/-- A demoted object that found no room leaves the cache, so it is evicted. -/
def recordCoolingDrop (c : SegmentedCounters) : Except Fault SegmentedCounters := do
  let coolingDrops ← Word.add c.coolingDrops 1
  let core ← c.core.recordEviction
  pure { c with coolingDrops, core }

def recordRemoval (c : SegmentedCounters) : Except Fault SegmentedCounters := do
  let removals ← Word.add c.removals 1
  pure { c with removals }

def text (c : SegmentedCounters) : String :=
  Text.record "SlruCacheMetrics" [
    ("core", c.core.text),
    ("segment_hits", Text.list (c.segmentHits.map toString)),
    ("promotions", toString c.promotions),
    ("demotions", toString c.demotions),
    ("cooling_drops", toString c.coolingDrops),
    ("removals", toString c.removals)]

end SegmentedCounters
end SegmentedCache
