import SegmentedCache.Segmented.Basic

/-!
# Cooling

To make room in a segment, its next victim is demoted to the segment below; if
that one is full it must be cooled first, and so on down. Segment 0 has none
below, so a victim of segment 0 leaves the cache.

The demotions under way form a list with the one that waits for the lowest
segment on top. A demotion ends when its object is admitted, or when the object
is dropped because the segment it waits for is empty and still too small, or
cannot be cooled.

Cooling a segment goes on until no demotion is under way. With `2 i + 1` for an
object in segment `i` and `2 i + 2` for one that waits for it, every pass lowers
the total, so `coolingBound` passes are enough.
-/
namespace SegmentedCache.Segmented
variable {C : Type} {top : Nat} [Policy C]

/-- An object on its way down: the level it waits for and the request that will
admit it there. -/
abbrev Demotion (top : Nat) := Level top × Request

/-- Evicts from one level. A victim of a level above 0 becomes a demotion; if
there is no victim, the topmost demotion waits for it in vain and is dropped. -/
def demote (time : Time) (level : Level top) (pending : List (Demotion top)) :
    Action (Segmented C top) (List (Demotion top)) := do
  match ← onSegment level Policy.evict with
  | some victim =>
    match level with
    | ⟨0, _⟩ =>
      recordCore Counters.recordEviction
      pure pending
    | ⟨below + 1, h⟩ =>
      record SegmentedCounters.recordDemotion
      CacheM.emit (.demoted victim.id below)
      pure ((⟨below, Nat.lt_of_succ_lt h⟩, Request.readmitting victim time) :: pending)
  | none =>
    match pending with
    | [] => pure []
    | (dest, stuck) :: rest =>
      CacheM.emit (.demotionStuck stuck.id dest)
      record SegmentedCounters.recordCoolingDrop
      pure rest

/-- Ends the demotions that need no further cooling, the topmost first, and
returns the rest. -/
def settle : List (Demotion top) → Action (Segmented C top) (List (Demotion top))
  | [] => pure []
  | (dest, r) :: rest => do
    let s ← get
    if ← s.hasRoomAt dest r.size then
      discard <| onSegment dest (Policy.insert r)
      settle rest
    else if Policy.count (s.segment dest) = 0 then
      CacheM.emit (.demotionDropped r.id dest)
      record SegmentedCounters.recordCoolingDrop
      settle rest
    else pure ((dest, r) :: rest)

/-- Cools a level, and then the levels that demotions wait for, within `fuel`
passes. -/
def coolWithin (time : Time) :
    Nat → Level top → List (Demotion top) → Action (Segmented C top) Unit
  | 0, _, _ => pure ()
  | fuel + 1, level, pending => do
    let pending ← demote time level pending
    match ← settle pending with
    | [] => pure ()
    | (dest, r) :: rest => coolWithin time fuel dest ((dest, r) :: rest)

/-- A bound on the passes that one cooling takes. -/
def coolingBound (s : Segmented C top) : Nat :=
  (levels top).foldr (fun i n => (2 * i.val + 1) * Policy.count (s.segment i) + n) 1

/-- Evicts one object from a level and demotes it one level down, cooling lower
levels as needed. -/
def cool (time : Time) (level : Level top) : Action (Segmented C top) Unit := do
  let s ← get
  coolWithin time s.coolingBound level []

/-- Cools a level until an object of this size fits or the level stops
shrinking, within `fuel` rounds. -/
def makeRoomWithin (time : Time) (dest : Level top) (size : Bytes) :
    Nat → Action (Segmented C top) Unit
  | 0 => pure ()
  | fuel + 1 => do
    let s ← get
    if ← s.hasRoomAt dest size then pure ()
    else
      let before := Policy.count (s.segment dest)
      if before = 0 then pure ()
      else
        cool time dest
        let s ← get
        if before ≤ Policy.count (s.segment dest) then pure ()
        else makeRoomWithin time dest size fuel

def makeRoom (time : Time) (dest : Level top) (size : Bytes) : Action (Segmented C top) Unit := do
  let s ← get
  makeRoomWithin time dest size (Policy.count (s.segment dest) + 1)

end SegmentedCache.Segmented
