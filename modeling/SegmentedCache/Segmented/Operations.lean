import SegmentedCache.Segmented.Cooling

/-!
# The segmented least-recently-used policy

New objects enter the coldest segment that has room; when none has, the coldest
segment makes room. A hit promotes the object one segment up, and the segment it
enters is cooled to take it.

A promotion or demotion makes a new object, with the size of the old one and
the lifetime that is left at the time of the move.
-/
namespace SegmentedCache.Segmented
variable {C : Type} {top : Nat} [Policy C]

/-- Moves the object that `r` has hit from one level to another. -/
def promote (r : Request) (level dest : Level top) : Action (Segmented C top) Unit := do
  match ← onSegment level (Policy.remove r.id) with
  | none => pure ()
  | some o =>
    let moved := Request.readmitting o r.time
    makeRoom r.time dest moved.size
    let s ← get
    if ← s.hasRoomAt dest moved.size then
      discard <| onSegment dest (Policy.insert moved)
      record SegmentedCounters.recordPromotion
      CacheM.emit (.promoted moved.id dest)
    else
      CacheM.emit (.promotionDropped moved.id dest)
      recordCore Counters.recordEviction

/-- Promotes the object that `r` has hit, unless its level is the hottest. -/
def promoteFrom (r : Request) (level : Level top) : Action (Segmented C top) Unit :=
  if h : level.val + 1 < top + 1 then promote r level ⟨level.val + 1, h⟩ else pure ()

/-- Looks a request up in the given levels, one after another. Returns the
first level that knows the object, with the outcome there. -/
def probe (r : Request) (update : Bool) :
    List (Level top) → Action (Segmented C top) (Option (Level top × Lookup))
  | [] => pure none
  | level :: rest => do
    match ← onSegment level (Policy.check r update) with
    | .miss => probe r update rest
    | .hit =>
      if update then promoteFrom r level
      pure (some (level, .hit))
    | .expired => pure (some (level, .expired))

def check (r : Request) (update : Bool) : Action (Segmented C top) Lookup := do
  match ← probe r update (levels top) with
  | some (_, found) => pure found
  | none => pure .miss

def evict : Action (Segmented C top) (Option CacheObject) := do
  match ← onSegment 0 Policy.evict with
  | none => pure none
  | some victim =>
    recordCore Counters.recordEviction
    pure (some victim)

/-- Evicts until the coldest segment has room for an object of this size or
nothing can be evicted, within `fuel` evictions. -/
def evictUntilRoom (size : Bytes) : Nat → Action (Segmented C top) Unit
  | 0 => pure ()
  | fuel + 1 => do
    let s ← get
    if ← s.hasRoomAt 0 size then pure ()
    else
      match ← evict with
      | none => pure ()
      | some _ => evictUntilRoom size fuel

/-- Removes the cached object with this id, if there is one. -/
def displace (id : ObjectId) : Action (Segmented C top) Unit := do
  let s ← get
  let st ← getThe Store
  match s.segmentOf? st id with
  | none => pure ()
  | some level => discard <| onSegment level (Policy.remove id)

/-- The level that takes a new object of this size: the coldest with room, else
the coldest of all, which then makes room. -/
def levelFor (size : Bytes) : Action (Segmented C top) (Level top) := do
  let s ← get
  let found ← s.firstWithRoom size (levels top)
  let level := found.getD 0
  if level = 0 then evictUntilRoom size (Policy.count (s.segment 0) + 1)
  pure level

def insert (r : Request) : Action (Segmented C top) (Option CacheObject) := do
  let s ← get
  let charge := s.charge r.size
  if charge > Policy.capacity (s.segment 0) then
    CacheM.emit (.exceedsColdest r.id charge)
    pure none
  else
    displace r.id
    let level ← levelFor r.size
    match ← onSegment level (Policy.insert r) with
    | none => pure none
    | some o =>
      recordCore (·.recordInsertion r.size)
      pure (some o)

def serve (r : Request) : Action (Segmented C top) Lookup := do
  let found ← probe r true (levels top)
  let outcome ← match found with
    | some (level, .hit) => do
      record (·.recordSegmentHit level r.size)
      pure Lookup.hit
    | some (_, .expired) => do
      recordCore (·.recordExpired r.size)
      pure Lookup.expired
    | _ => do
      recordCore (·.recordMiss r.size)
      pure Lookup.miss
  if outcome ≠ .hit then
    let s ← get
    if s.charge r.size ≤ s.limit then discard <| insert r
    else CacheM.emit (.notAdmittedAbove r.id r.size s.limit)
  pure outcome

def remove (id : ObjectId) : Action (Segmented C top) (Option CacheObject) := do
  let s ← get
  let st ← getThe Store
  match s.segmentOf? st id with
  | none =>
    CacheM.emit (.notCached id)
    pure none
  | some level =>
    let removed ← onSegment level (Policy.remove id)
    record SegmentedCounters.recordRemoval
    pure removed

def releaseAll : List (Level top) → Action (Segmented C top) Unit
  | [] => pure ()
  | level :: rest => do
    onSegment level Policy.release
    releaseAll rest

instance : Policy (Segmented C top) where
  name _ := SegmentedCounters.policyName
  capacity s := s.params.capacity
  overhead s := s.params.overhead
  admissionLimit s := s.limit
  count := count
  occupied := occupied
  victim? s := Policy.victim? (s.segment 0)
  contains st s id := (s.segmentOf? st id).isSome
  check := check
  serve := serve
  insert := insert
  evict := evict
  remove := remove
  release := releaseAll (levels top)

end SegmentedCache.Segmented
