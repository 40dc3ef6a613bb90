import SegmentedCache.Segmented.Operations

/-!
# Building segmented caches

The segments are built coldest first, each from the parameters of the whole with
its own share of the capacity. The first that is refused is the refusal of the
whole. A segmented cache admits what its most restrictive segment admits, since
an object may travel through all of them.
-/
namespace SegmentedCache.Segmented
variable {C : Type} [Policy C]

/-- Builds the numbered parts in order. -/
def buildParts (build : Nat → BuildM C) : List Nat → BuildM (List C)
  | [] => pure []
  | i :: rest => do
    let c ← build i
    let others ← buildParts build rest
    pure (c :: others)

/-- The smallest admission limit of the segments. -/
def leastLimit (segments : List C) : Bytes :=
  match segments.map Policy.admissionLimit with
  | [] => 0
  | limit :: rest => rest.foldl min limit

def ofParts (p : Params) (segments : List C) {top : Nat} (h : segments.length = top + 1) :
    Segmented C top where
  params := p
  segments := ⟨segments.toArray, by simpa using h⟩
  limit := leastLimit segments
  counters := .ofCapacity p.capacity segments.length

def create (p : Params) (n : Segmentation) (build : Nat → Params → BuildM C) :
    BuildM (Σ top, Segmented C top) := do
  p.validate
  n.validate p.capacity
  let segments ← buildParts (fun i => build i { p with capacity := n.share p.capacity i })
    (List.range n.count)
  match segments with
  | [] => throw (.config .noSegments)
  | c :: rest =>
    let s : Segmented C rest.length := ofParts p (c :: rest) rfl
    CacheM.emit (.segmentedCreated p.capacity (rest.length + 1) s.limit)
    pure ⟨rest.length, s⟩

end SegmentedCache.Segmented
