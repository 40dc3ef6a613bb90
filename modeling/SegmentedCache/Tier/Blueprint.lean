import SegmentedCache.Segmented.Creation
import SegmentedCache.Tier.Basic

/-!
# Blueprints

A blueprint says which tier to build from given parameters: of which kind, how
many segments, and the blueprint of each segment. A blueprint may adjust the
parameters it is given, so a segment need not keep to its share. A cache built
from a blueprint whose author vouches for it faults where another is refused.
-/
namespace SegmentedCache

/-- Changes to parameters; what is not named is kept. -/
structure Adjustment where
  capacity : Option Bytes := none
  overhead : Option Bytes := none
  hashpower : Option Nat := none
deriving DecidableEq, Repr, Inhabited

def Adjustment.apply (a : Adjustment) (p : Params) : Params where
  capacity := a.capacity.getD p.capacity
  overhead := a.overhead.getD p.overhead
  hashpower := a.hashpower.getD p.hashpower

inductive Blueprint : Nat → Type
  | lru {d : Nat} (adjust : Adjustment) (vouched : Bool) : Blueprint d
  | segmented {d : Nat} (adjust : Adjustment) (vouched : Bool) (count : Nat)
    (plan : Nat → Blueprint d) : Blueprint (d + 1)

namespace Blueprint

def build : {d : Nat} → Blueprint d → Params → BuildM (Tier d)
  | _, .lru adjust vouched, p => do
    let p := adjust.apply p
    let c ← if vouched then ExceptT.lift (Lru.createVouched p) else Lru.create p
    pure (.ofLru c)
  | _, .segmented adjust vouched count plan, p => do
    let n ← Segmentation.ofCount count
    let create := Segmented.create (adjust.apply p) n fun i q => (plan i).build q
    let ⟨_, s⟩ ← if vouched then ExceptT.lift (BuildM.orFault create) else create
    pure (.ofSegmented s)

/-- A segmented cache of least-recently-used segments. -/
def ofLrus {d : Nat} (adjust : Adjustment) (vouched : Bool) (count : Nat) : Blueprint (d + 1) :=
  .segmented adjust vouched count fun _ => .lru {} vouched

end Blueprint
end SegmentedCache
