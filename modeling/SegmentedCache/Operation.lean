import SegmentedCache.Policy

/-!
# Operations

A client drives a cache by a sequence of operations and sees the response to
each. Every policy takes the same operations, so sequences can be compared
across policies.
-/
namespace SegmentedCache

inductive Operation
  | serve (r : Request)
  | check (r : Request) (update : Bool)
  | insert (r : Request)
  | evict
  | remove (id : ObjectId)
deriving DecidableEq, Repr

inductive Response
  | found (outcome : Lookup)
  | object (o : Option CacheObject)
deriving DecidableEq, Repr

namespace Policy
variable {C : Type} [Policy C]

def perform : Operation → Action C Response
  | .serve r => .found <$> serve r
  | .check r update => .found <$> check r update
  | .insert r => .object <$> insert r
  | .evict => .object <$> evict
  | .remove id => .object <$> remove id

def performAll : List Operation → Action C (List Response)
  | [] => pure []
  | op :: rest => do
    let response ← perform op
    let responses ← performAll rest
    pure (response :: responses)

end Policy
end SegmentedCache
