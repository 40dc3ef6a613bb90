import SegmentedCache.Text.Record
import SegmentedCache.Word

/-!
# Requests and the objects they admit

A request asks for an object by its id at a logical time. If the object is
admitted, the request's lifetime, counted from that time, fixes the instant
from which the object is expired.

An object is known by its serial number: two objects with the same id, size
and expiry are still different objects when their serials differ, as when an
id is admitted twice. What changes during an object's life, whether a cache
holds it and where, is not part of it; see `SegmentedCache.Objects`.
-/
namespace SegmentedCache

abbrev ObjectId := UInt64
abbrev Bytes := UInt64
abbrev Time := UInt64

structure Request where
  id : ObjectId
  size : Bytes
  time : Time := 0
  lifetime : Option Time := none
deriving DecidableEq, Repr, Inhabited

structure CacheObject where
  serial : Nat
  id : ObjectId
  size : Bytes
  expiry : Option Time
deriving DecidableEq, Repr, Inhabited

/-- The outcome of looking a request up. An expired object is no hit. -/
inductive Lookup
  | hit
  | miss
  | expired
deriving DecidableEq, Repr, Inhabited

namespace Request

/-- The instant from which an object admitted by this request is expired. -/
def expiry (r : Request) : Option Time :=
  r.lifetime.map (Word.saturatingAdd r.time)

/-- The request that admits an equal object again at `time`, with the lifetime
that is left then. -/
def readmitting (o : CacheObject) (time : Time) : Request where
  id := o.id
  size := o.size
  time := time
  lifetime := o.expiry.map (Word.saturatingSub · time)

def text (r : Request) : String :=
  Text.record "Request" [
    ("obj_id", toString r.id),
    ("obj_size", toString r.size),
    ("clock_time", toString r.time),
    ("ttl", Text.optional (r.lifetime.map toString))]

end Request

namespace CacheObject

/-- An object is expired from its expiry on, that instant included. -/
def expiredAt (o : CacheObject) (time : Time) : Bool :=
  match o.expiry with
  | none => false
  | some e => e ≤ time

/-- The text of an object, with whether it is resident at the moment. -/
def text (o : CacheObject) (resident : Bool) : String :=
  Text.record "CacheObject" [
    ("obj_id", toString o.id),
    ("obj_size", toString o.size),
    ("exp_time", Text.optional (o.expiry.map toString)),
    ("in_cache", Text.boolean resident)]

end CacheObject
end SegmentedCache
