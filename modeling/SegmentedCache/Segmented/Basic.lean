import SegmentedCache.Counters.Report
import SegmentedCache.Params
import SegmentedCache.Policy

/-!
# Segmented caches

A segmented cache divides its capacity into segments, each a cache of its own;
segment 0 is the coldest. The index type of the segments is `Fin (top + 1)`, so
there always is a coldest segment and every level names one.

This module has the type, its reading operations and the work on one segment.
-/
namespace SegmentedCache

structure Segmented (C : Type) (top : Nat) where
  params : Params
  segments : Vector C (top + 1)
  limit : Bytes
  counters : SegmentedCounters

/-- The levels of a segmented cache, the coldest first. -/
abbrev Level (top : Nat) := Fin (top + 1)

namespace Segmented
variable {C : Type} {top : Nat}

def segment (s : Segmented C top) (i : Level top) : C := s.segments.get i

def setSegment (s : Segmented C top) (i : Level top) (c : C) : Segmented C top :=
  { s with segments := s.segments.set i c }

theorem segment_setSegment (s : Segmented C top) (i j : Level top) (c : C) :
    (s.setSegment i c).segment j = if j = i then c else s.segment j :=
  get_set_vector s.segments i j c

/-- The levels from the coldest to the hottest. -/
def levels (top : Nat) : List (Level top) := List.finRange (top + 1)

/-- Works on one segment. -/
def onSegment {α : Type} (i : Level top) (act : Action C α) : Action (Segmented C top) α :=
  fun s => do
    let (a, c) ← act (s.segment i)
    pure (a, s.setSegment i c)

@[simp] theorem onSegment_apply {α : Type} (i : Level top) (act : Action C α)
    (s : Segmented C top) (st : Store) :
    onSegment i act s st =
      match act (s.segment i) st with
      | .ok (a, c) st => .ok (a, s.setSegment i c) st
      | .error e st => .error e st := by
  change EStateM.bind (act (s.segment i)) _ st = _
  unfold EStateM.bind
  cases act (s.segment i) st <;> rfl

def record (f : SegmentedCounters → Except Fault SegmentedCounters) :
    Action (Segmented C top) Unit := do
  let s ← get
  let counters ← f s.counters
  set { s with counters }

def recordCore (f : Counters → Except Fault Counters) : Action (Segmented C top) Unit :=
  record (SegmentedCounters.onCore f)

variable [Policy C]

/-- The coldest segment that has an id. -/
def segmentOf? (st : Store) (s : Segmented C top) (id : ObjectId) : Option (Level top) :=
  (levels top).find? fun i => Policy.contains st (s.segment i) id

/-- The number of objects in all segments. -/
def count (s : Segmented C top) : Nat := s.segments.toList.foldr (fun c n => Policy.count c + n) 0

/-- The bytes occupied in all segments. -/
def occupied (s : Segmented C top) : Except Fault Bytes :=
  s.segments.toList.foldlM (fun total c => do
    let bytes ← Policy.occupied c
    Word.add total bytes) 0

def charge (s : Segmented C top) (size : Bytes) : Bytes :=
  Word.saturatingAdd size s.params.overhead

def hasRoomAt (s : Segmented C top) (i : Level top) (size : Bytes) : Except Fault Bool :=
  Policy.hasRoom (s.segment i) size

/-- The first of the given levels that has room for an object of this size. -/
def firstWithRoom (s : Segmented C top) (size : Bytes) :
    List (Level top) → Except Fault (Option (Level top))
  | [] => pure none
  | i :: rest => do
    if ← s.hasRoomAt i size then pure (some i) else s.firstWithRoom size rest

def report (s : Segmented C top) : Except Fault Report := do
  let own ← s.counters.entries
  let segments ← s.segments.toList.zipIdx.mapM fun (c, i) => do
    let bytes ← Policy.occupied c
    pure [
      (s!"segment_{i}_n_obj", (UInt64.ofNat (Policy.count c)).toFloat),
      (s!"segment_{i}_occupied_bytes", bytes.toFloat)]
  pure (Report.sorted (own ++ segments.flatten))

def text (s : Segmented C top) : Except Fault String := do
  let occupied ← s.segments.toList.mapM Policy.occupied
  pure <| Text.record "SlruCache" [
    ("cache_size", toString s.params.capacity),
    ("n_seg", toString (top + 1)),
    ("segment_occupied", Text.list (occupied.map toString)),
    ("n_obj", toString s.count)]

end Segmented
end SegmentedCache
