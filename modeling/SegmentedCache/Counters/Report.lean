import SegmentedCache.Counters.Basic

/-!
# Reports

A report is the counters of a cache and the rates derived from them, as numbers
under names, in the order of the names. A rate is 0 where there is nothing to
divide by. Misses are requests less hits, so a report of counters with more
hits than requests is a fault.
-/
namespace SegmentedCache

abbrev Report := List (String × Float)

/-- The entries in the order of their names. -/
def Report.sorted (r : Report) : Report := r.mergeSort fun a b => a.1 ≤ b.1

/-- The quotient of two words, each rounded to a float first. -/
def ratio (a b : UInt64) : Float := a.toFloat / b.toFloat

/-- The quotient, or 0 if the divisor is 0. -/
def rate (a b : UInt64) : Float := if b > 0 then ratio a b else 0

namespace Counters

def hitRate (c : Counters) : Float := rate c.hits c.requests

def missRate (c : Counters) : Except Fault Float :=
  if c.requests > 0 then do
    let misses ← c.misses
    pure (ratio misses c.requests)
  else pure 0

def byteHitRate (c : Counters) : Float := rate c.bytesServed c.bytesRequested

/-- The entries of a report on the core counters, in no particular order. -/
def entries (c : Counters) : Except Fault Report := do
  let misses ← c.misses
  let missRate ← c.missRate
  let perRequest := if c.requests > 0 then
      [("avg_object_size", ratio c.bytesRequested c.requests),
        ("eviction_rate", ratio c.evictions c.requests)]
    else []
  pure ([
    ("cache_hits", c.hits.toFloat),
    ("cache_misses", misses.toFloat),
    ("evictions", c.evictions.toFloat),
    ("expired", c.expired.toFloat),
    ("insertions", c.insertions.toFloat),
    ("requests", c.requests.toFloat),
    ("hit_rate", c.hitRate),
    ("miss_rate", missRate),
    ("byte_hit_rate", c.byteHitRate),
    ("bytes_served_from_cache", c.bytesServed.toFloat),
    ("bytes_written_to_cache", c.bytesWritten.toFloat),
    ("total_bytes_requested", c.bytesRequested.toFloat),
    ("max_cache_size_bytes", c.capacity.toFloat)] ++ perRequest)

def report (c : Counters) : Except Fault Report := do
  let entries ← c.entries
  pure (Report.sorted entries)

end Counters

namespace LruCounters

def report (c : LruCounters) : Except Fault Report := do
  let core ← c.core.entries
  pure (Report.sorted (core ++ [
    ("removals", c.removals.toFloat),
    ("expired_removals", c.expiredRemovals.toFloat)]))

end LruCounters

namespace SegmentedCounters

/-- The share of the hits that the hottest segment served. -/
def protectionRatio (c : SegmentedCounters) : Float :=
  match c.segmentHits.getLast? with
  | some top => rate top c.core.hits
  | none => 0

def entries (c : SegmentedCounters) : Except Fault Report := do
  let core ← c.core.entries
  let segments := c.segmentHits.zipIdx.map fun (hits, i) =>
    (s!"segment_{i}_hits", hits.toFloat)
  let perRequest := if c.core.requests > 0 then
      [("promotion_rate", ratio c.promotions c.core.requests),
        ("demotion_rate", ratio c.demotions c.core.requests)]
    else []
  pure (core ++ segments ++ [
    ("protection_ratio", c.protectionRatio),
    ("promotions", c.promotions.toFloat),
    ("demotions", c.demotions.toFloat),
    ("cooling_drops", c.coolingDrops.toFloat),
    ("removals", c.removals.toFloat)] ++ perRequest)

def report (c : SegmentedCounters) : Except Fault Report := do
  let entries ← c.entries
  pure (Report.sorted entries)

end SegmentedCounters
end SegmentedCache
