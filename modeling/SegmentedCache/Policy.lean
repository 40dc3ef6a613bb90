import SegmentedCache.Action

/-!
# Policies

What every cache can do, whatever it evicts first. A segmented cache is built of
caches it knows only through these operations, so its segments may be of any
kind, segmented caches included.

Every cached object is charged its size and a fixed overhead against the
capacity. `serve` is what a workload calls: it looks a request up and, unless
that is a hit, admits the object if its charge is within the admission limit.
The other operations are the parts that policies use on each other.
-/
namespace SegmentedCache

class Policy (C : Type) where
  /-- The policy's short name. -/
  name : C → String
  capacity : C → Bytes
  /-- The charge for an object on top of its size. -/
  overhead : C → Bytes
  /-- The largest charge that `serve` admits. -/
  admissionLimit : C → Bytes
  /-- The number of objects in the cache. -/
  count : C → Nat
  /-- The charges of the objects in the cache, which may leave the range of a word. -/
  occupied : C → Except Fault Bytes
  /-- The object whose turn to be evicted it is. -/
  victim? : C → Option CacheObject
  contains : Store → C → ObjectId → Bool
  /-- Looks a request up. With `update`, a hit refreshes the object's position
  and an expired object is dropped; without, nothing changes. -/
  check : Request → (update : Bool) → Action C Lookup
  serve : Request → Action C Lookup
  /-- Admits a new object for the request, in place of one with the same id,
  and evicts as needed; `none` if it can never fit. -/
  insert : Request → Action C (Option CacheObject)
  evict : Action C (Option CacheObject)
  remove : ObjectId → Action C (Option CacheObject)
  /-- Gives up the cache: its objects leave their indexes. -/
  release : Action C Unit

namespace Policy
variable {C : Type} [Policy C]

def charge (c : C) (size : Bytes) : Bytes := Word.saturatingAdd size (overhead c)

/-- Whether `serve` admits an object of this size. -/
def canAdmit (c : C) (size : Bytes) : Bool := charge c size ≤ admissionLimit c

/-- Whether an object of this size fits without an eviction. -/
def hasRoom (c : C) (size : Bytes) : Except Fault Bool := do
  let occupied ← occupied c
  pure (Word.saturatingAdd (Word.saturatingAdd occupied size) (overhead c) ≤ capacity c)

end Policy
end SegmentedCache
