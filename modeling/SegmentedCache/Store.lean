import SegmentedCache.Index.Basic
import SegmentedCache.Index.Hash
import SegmentedCache.Event

/-!
# The shared store

Objects and indexes are shared: an object may be known to a cache, an index and
a client at once, and an index outlives the cache it was made for. The store
holds the live state of both, the hash by which new indexes place ids, and the
events reported so far. A cache holds its objects and the number of its index,
and works on the store in the monad `CacheM`. A fault ends the work and leaves
the store as it was when the fault arose.
-/
namespace SegmentedCache

/-- Names an index of the store. -/
abbrev IndexId := Nat

structure Store where
  /-- Given once, by the program; every index that is made uses it. -/
  hash : ObjectId → UInt64 := Hash.ofId
  objects : Objects := .empty
  indexes : Table Index := .empty
  events : Array Event := #[]

instance : Inhabited Store := ⟨{}⟩

abbrev CacheM := EStateM Fault Store

/-- A construction, which may be refused without a fault. -/
abbrev BuildM := ExceptT BuildError CacheM

instance : MonadLift (Except Fault) CacheM where
  monadLift
    | .ok a => pure a
    | .error e => throw e

namespace Store

def index (st : Store) (k : IndexId) : Index := st.indexes.get k

def resident (st : Store) (o : CacheObject) : Bool := st.objects.resident o

end Store

namespace CacheM

def emit (e : Event) : CacheM Unit :=
  modify fun st => { st with events := st.events.push e }

def createObject (id : ObjectId) (size : Bytes) (expiry : Option Time) : CacheM CacheObject :=
  modifyGet fun st =>
    let (o, objects) := st.objects.create id size expiry
    (o, { st with objects })

/-- Makes the object that a request admits. -/
def createFor (r : Request) : CacheM CacheObject := createObject r.id r.size r.expiry

/-- Works on an index and on the objects it may displace. -/
def onIndex {α : Type} (k : IndexId) (f : Index → Objects → α × Index × Objects) : CacheM α :=
  modifyGet fun st =>
    let (a, index, objects) := f (st.index k) st.objects
    (a, { st with objects, indexes := st.indexes.set k index })

end CacheM

namespace BuildM

/-- Makes an empty index of `1 <<< hashpower` buckets. -/
def createIndex (hashpower : Nat) : BuildM IndexId := do
  let st ← getThe Store
  let index ← Index.create st.hash hashpower
  CacheM.emit (.indexCreated hashpower index.stripeCount)
  modifyGetThe Store fun st => (st.indexes.size, { st with indexes := st.indexes.push index })

/-- A construction that the caller vouches for: a refusal is a fault. -/
def orFault {α : Type} (build : BuildM α) : CacheM α := do
  match ← build.run with
  | .ok a => pure a
  | .error e => throw (.refused e)

/-- A construction that cannot be done without: a refusal is reported and ends
the work. -/
def orAbort {α : Type} (build : BuildM α) : CacheM α := do
  match ← build.run with
  | .ok a => pure a
  | .error e =>
    CacheM.emit (.cannotContinue e)
    throw (.aborted e)

end BuildM
end SegmentedCache
