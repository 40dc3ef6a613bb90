import SegmentedCache.Lru.Basic

/-!
# The least-recently-used policy

A hit moves the object to the front of the queue. Admitting an object takes out
what it replaces, evicts from the back until its charge fits, and links it at
the front. Orphans that are met on the way go silently: they are neither
returned nor counted as evicted.
-/
namespace SegmentedCache.Lru

def dropOrphans : List CacheObject → Action Lru Unit
  | [] => pure ()
  | o :: rest => do
    CacheM.emit (.orphanDropped o.id)
    discard <| unlink o
    dropOrphans rest

/-- Drops every orphan of the queue. -/
def purge : Action Lru Unit := do
  let c ← get
  let st ← getThe Store
  dropOrphans (c.orphans st)

/-- Takes objects off the back of the queue until one was resident, within
`fuel` objects. -/
def evictWithin : Nat → Action Lru (Option CacheObject)
  | 0 => pure none
  | fuel + 1 => do
    let c ← get
    match c.queue.back? with
    | none => pure none
    | some o =>
      let st ← getThe Store
      let resident := st.resident o
      if ← unlink o then
        if resident then
          recordCore Counters.recordEviction
          CacheM.emit (.evicted o.id)
          pure (some o)
        else evictWithin fuel
      else pure none

def evict : Action Lru (Option CacheObject) := do
  let c ← get
  evictWithin c.queue.length

/-- Evicts until a further charge fits or nothing can be evicted, within `fuel`
evictions. -/
def makeRoomWithin (charge : Bytes) : Nat → Action Lru Unit
  | 0 => pure ()
  | fuel + 1 => do
    let c ← get
    let total ← Word.add c.occupied charge
    if total > c.params.capacity then
      match ← evict with
      | none => pure ()
      | some _ => makeRoomWithin charge fuel
    else pure ()

/-- Makes room for a charge that is within the capacity. -/
def makeRoom (charge : Bytes) : Action Lru Unit := do
  let c ← get
  makeRoomWithin charge (c.queue.length + 1)

/-- Takes the objects that `r` is to replace out of the queue: the cached one
with its id, or every orphan if the index shows that it was written from
outside. -/
def displace (r : Request) : Action Lru Unit := do
  let c ← get
  let st ← getThe Store
  let index := st.index c.index
  match index.find? r.id with
  | some old => if st.resident old then discard <| unlink old else purge
  | none => if index.count < c.queue.length then purge else pure ()

/-- Enters a new object for `r` into the index and links it at the front. -/
def link (r : Request) : Action Lru CacheObject := do
  let c ← get
  let o ← CacheM.createFor r
  match ← CacheM.onIndex c.index fun ix s => ix.insert s o with
  | none => pure ()
  | some stale => discard <| unlink stale
  let c ← get
  let st ← getThe Store
  let (queue, objects) := c.queue.pushFront st.objects o
  modifyThe Store fun st => { st with objects := objects.setResident o true }
  let occupied ← Word.add c.occupied (c.charge r.size)
  set { c with queue, occupied }
  pure o

def insert (r : Request) : Action Lru (Option CacheObject) := do
  let c ← get
  let charge := c.charge r.size
  if charge > c.params.capacity then
    CacheM.emit (.exceedsCache r.id charge c.params.capacity)
    pure none
  else
    displace r
    makeRoom charge
    let o ← link r
    recordCore (·.recordInsertion r.size)
    pure (some o)

def check (r : Request) (update : Bool) : Action Lru Lookup := do
  let c ← get
  let st ← getThe Store
  match c.find? st r.id with
  | none => pure .miss
  | some o =>
    if o.expiredAt r.time then
      if update then
        discard <| unlink o
        record LruCounters.recordExpiredRemoval
      pure .expired
    else
      if update then
        match (st.objects.slot o).bind c.queue.moveToFront with
        | some queue => set { c with queue }
        | none => pure ()
      pure .hit

def serve (r : Request) : Action Lru Lookup := do
  let found ← check r true
  recordCore (·.recordLookup r.size found)
  if found ≠ .hit then
    let c ← get
    if c.charge r.size ≤ c.params.capacity then discard <| insert r
    else CacheM.emit (.notAdmitted r.id r.size)
  pure found

def remove (id : ObjectId) : Action Lru (Option CacheObject) := do
  let c ← get
  let st ← getThe Store
  match c.find? st id with
  | none =>
    CacheM.emit (.notCached id)
    pure none
  | some o =>
    let removed ← unlink o
    record LruCounters.recordRemoval
    pure (if removed then some o else none)

/-- Takes objects off the back of the queue and deletes the entries that are
theirs, within `fuel` objects. -/
def releaseWithin : Nat → Action Lru Unit
  | 0 => pure ()
  | fuel + 1 => do
    let c ← get
    let st ← getThe Store
    match c.queue.popBack st.objects with
    | (none, _, _) => pure ()
    | (some o, queue, objects) =>
      modifyThe Store fun st => { st with objects }
      discard <| CacheM.onIndex c.index fun ix s => ix.deleteExact s o
      set { c with queue }
      releaseWithin fuel

def release : Action Lru Unit := do
  let c ← get
  releaseWithin c.queue.length

instance : Policy Lru where
  name _ := LruCounters.policyName
  capacity c := c.params.capacity
  overhead c := c.params.overhead
  admissionLimit c := c.params.capacity
  count c := c.queue.length
  occupied c := .ok c.occupied
  victim? c := c.queue.back?
  contains st c id := (c.find? st id).isSome
  check := check
  serve := serve
  insert := insert
  evict := evict
  remove := remove
  release := release

end SegmentedCache.Lru
