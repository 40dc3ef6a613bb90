import SegmentedCache.Counters.Report
import SegmentedCache.Params
import SegmentedCache.Policy
import SegmentedCache.Recency

/-!
# The least-recently-used cache

A byte-bounded cache that evicts what was used longest ago. Its queue holds its
objects by recency; its index finds them by id. The index is shared, so it may
be written from outside: an object whose entry was replaced or deleted there is
no longer resident, but stays queued, as an orphan that still holds its bytes,
until the cache comes across it.

Only a resident object counts as found. An object leaves the queue, the index
and the byte total together, by `unlink`; every operation that takes an object
out goes through it.
-/
namespace SegmentedCache

structure Lru where
  params : Params
  index : IndexId
  queue : Recency := .empty
  occupied : Bytes := 0
  counters : LruCounters := .ofCapacity params.capacity

instance : Inhabited Lru := ⟨{ params := default, index := 0 }⟩

namespace Lru

/-- A cache on a new index of its own. -/
def onIndex (p : Params) (index : IndexId) : CacheM Lru := do
  CacheM.emit (.lruCreated p.capacity p.overhead p.hashpower)
  pure { params := p, index }

def create (p : Params) : BuildM Lru := do
  p.validate
  let index ← BuildM.createIndex p.hashpower
  onIndex p index

/-- A cache for parameters that the caller vouches for. -/
def createVouched (p : Params) : CacheM Lru := do
  BuildM.orFault p.validate
  let index ← BuildM.orAbort (BuildM.createIndex p.hashpower)
  onIndex p index

def charge (c : Lru) (size : Bytes) : Bytes := Word.saturatingAdd size c.params.overhead

/-- The resident object that the index has for an id. -/
def find? (st : Store) (c : Lru) (id : ObjectId) : Option CacheObject :=
  ((st.index c.index).find? id).filter st.resident

/-- The queued objects, most recently used first. -/
def objects (c : Lru) : List CacheObject := c.queue.toList

/-- The queued objects that are not resident, most recently used first. -/
def orphans (st : Store) (c : Lru) : List CacheObject :=
  c.objects.filter fun o => !st.resident o

def report (c : Lru) : Except Fault Report := c.counters.report

def text (c : Lru) : String :=
  Text.record "LruCache" [
    ("cache_size", toString c.params.capacity),
    ("occupied_size", toString c.occupied),
    ("n_obj", toString c.queue.length)]

def record (f : LruCounters → Except Fault LruCounters) : Action Lru Unit := do
  let c ← get
  let counters ← f c.counters
  set { c with counters }

def recordCore (f : Counters → Except Fault Counters) : Action Lru Unit :=
  record (LruCounters.onCore f)

/-- Takes `o` out of the queue, out of the index if it is the entry for its id,
and out of the byte total. Reports whether `o` was queued here. -/
def unlink (o : CacheObject) : Action Lru Bool := do
  let c ← get
  let st ← getThe Store
  match (st.objects.slot o).filter (c.queue.holds · o) with
  | none => pure false
  | some k =>
    let (_, queue, objects) := c.queue.remove st.objects k
    modifyThe Store fun st => { st with objects := objects.setResident o false }
    discard <| CacheM.onIndex c.index fun ix s => ix.deleteExact s o
    let occupied ← Word.sub c.occupied (c.charge o.size)
    set { c with queue, occupied }
    pure true

end Lru
end SegmentedCache
