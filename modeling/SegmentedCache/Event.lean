import SegmentedCache.Request

/-!
# Events

What a cache reports while it works. An event's line is its level, its message
and its fields, each with its value.
-/
namespace SegmentedCache

inductive Event
  | indexCreated (hashpower stripes : Nat)
  | lruCreated (capacity overhead : Bytes) (hashpower : Nat)
  | segmentedCreated (capacity : Bytes) (segments : Nat) (limit : Bytes)
  | notAdmitted (id : ObjectId) (size : Bytes)
  | notAdmittedAbove (id : ObjectId) (size limit : Bytes)
  | exceedsCache (id : ObjectId) (charge capacity : Bytes)
  | exceedsColdest (id : ObjectId) (charge : Bytes)
  | orphanDropped (id : ObjectId)
  | evicted (id : ObjectId)
  | notCached (id : ObjectId)
  | promoted (id : ObjectId) (dest : Nat)
  | promotionDropped (id : ObjectId) (dest : Nat)
  | demoted (id : ObjectId) (dest : Nat)
  | demotionStuck (id : ObjectId) (dest : Nat)
  | demotionDropped (id : ObjectId) (dest : Nat)
  | cannotContinue (error : BuildError)
deriving DecidableEq, Repr

namespace Event

inductive Level
  | trace
  | debug
  | warn
  | error
deriving DecidableEq, Repr

def Level.text : Level → String
  | .trace => "TRACE"
  | .debug => "DEBUG"
  | .warn => "WARN"
  | .error => "ERROR"

def level : Event → Level
  | .indexCreated .. => .debug
  | .lruCreated .. => .debug
  | .segmentedCreated .. => .debug
  | .notAdmitted .. => .trace
  | .notAdmittedAbove .. => .trace
  | .exceedsCache .. => .debug
  | .exceedsColdest .. => .debug
  | .orphanDropped .. => .debug
  | .evicted .. => .trace
  | .notCached .. => .warn
  | .promoted .. => .trace
  | .promotionDropped .. => .debug
  | .demoted .. => .trace
  | .demotionStuck .. => .debug
  | .demotionDropped .. => .debug
  | .cannotContinue .. => .error

def message : Event → String
  | .indexCreated .. => "created concurrent index"
  | .lruCreated .. => "created LRU cache"
  | .segmentedCreated .. => "created SLRU cache"
  | .notAdmitted .. => "object too large to cache"
  | .notAdmittedAbove .. => "object too large to cache"
  | .exceedsCache .. => "request larger than the cache"
  | .exceedsColdest .. => "request larger than segment 0"
  | .orphanDropped .. => "dropping object unlinked from the index"
  | .evicted .. => "evicted"
  | .notCached .. => "removing an object that is not cached"
  | .promoted .. => "promoted"
  | .promotionDropped .. => "segment cannot hold the promoted object, dropping it"
  | .demoted .. => "demoted"
  | .demotionStuck .. => "dropping demoted object"
  | .demotionDropped .. => "segment cannot hold the demoted object, dropping it"
  | .cannotContinue .. => "cannot continue without the object index"

def fields : Event → List (String × String)
  | .indexCreated h n => [("hashpower", toString h), ("stripes", toString n)]
  | .lruCreated c o h =>
    [("cache_size", toString c), ("per_obj_overhead", toString o), ("hashpower", toString h)]
  | .segmentedCreated c n l =>
    [("cache_size", toString c), ("n_seg", toString n), ("admission_limit", toString l)]
  | .notAdmitted id size => [("obj_id", toString id), ("obj_size", toString size)]
  | .notAdmittedAbove id size l =>
    [("obj_id", toString id), ("obj_size", toString size), ("admission_limit", toString l)]
  | .exceedsCache id charge c =>
    [("obj_id", toString id), ("charge", toString charge), ("cache_size", toString c)]
  | .exceedsColdest id charge => [("obj_id", toString id), ("charge", toString charge)]
  | .orphanDropped id => [("obj_id", toString id)]
  | .evicted id => [("obj_id", toString id)]
  | .notCached id => [("obj_id", toString id)]
  | .promoted id dest => [("obj_id", toString id), ("dest", toString dest)]
  | .promotionDropped id dest => [("obj_id", toString id), ("dest", toString dest)]
  | .demoted id dest => [("obj_id", toString id), ("dest", toString dest)]
  | .demotionStuck id dest => [("obj_id", toString id), ("dest", toString dest)]
  | .demotionDropped id dest => [("obj_id", toString id), ("dest", toString dest)]
  | .cannotContinue e => [("error", e.message)]

def line (e : Event) : String :=
  " ".intercalate (e.level.text :: e.message :: e.fields.map fun f => f.1 ++ "=" ++ f.2)

end Event
end SegmentedCache
