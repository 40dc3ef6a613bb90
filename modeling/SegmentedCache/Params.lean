import SegmentedCache.Request
import SegmentedCache.Text.Record

/-!
# Parameters

A cache has a capacity in bytes, a charge per object on top of its size, and an
index of `1 <<< hashpower` buckets. A segmented cache divides its capacity evenly
into a number of segments and gives the remainder to the coldest one.
-/
namespace SegmentedCache

def defaultHashpower : Nat := 16

structure Params where
  capacity : Bytes
  overhead : Bytes := 0
  hashpower : Nat := defaultHashpower
deriving DecidableEq, Repr, Inhabited

namespace Params

def validate (p : Params) : Except BuildError Unit :=
  if p.capacity = 0 then .error (.config .zeroCapacity)
  else if maxHashpower < p.hashpower then .error (.config (.hashpowerTooLarge p.hashpower))
  else .ok ()

def text (p : Params) : String :=
  Text.record "CommonCacheParams" [
    ("cache_size", toString p.capacity),
    ("per_obj_overhead", toString p.overhead),
    ("hashpower", toString p.hashpower)]

end Params

/-- The number of segments of a segmented cache; two, a probationary and a
protected one, if nothing else is said. -/
structure Segmentation where
  count : Nat := 2
deriving DecidableEq, Repr, Inhabited

namespace Segmentation

/-- A caller that asks for no segments at all faults at once. -/
def ofCount (n : Nat) : Except Fault Segmentation :=
  if n = 0 then .error .noSegments else .ok ⟨n⟩

/-- There is at least one segment, and every segment gets at least one byte. -/
def validate (s : Segmentation) (capacity : Bytes) : Except BuildError Unit :=
  if s.count = 0 then .error (.config .noSegments)
  else if capacity.toNat < s.count then .error (.config (.emptySegment s.count capacity))
  else .ok ()

/-- The capacity of segment `i`, the coldest being segment 0. -/
def share (s : Segmentation) (capacity : Bytes) (i : Nat) : Bytes :=
  let n := UInt64.ofNat s.count
  if i = 0 then capacity / n + capacity % n else capacity / n

def text (s : Segmentation) : String := Text.record "SlruParams" [("n_seg", toString s.count)]

end Segmentation
end SegmentedCache
