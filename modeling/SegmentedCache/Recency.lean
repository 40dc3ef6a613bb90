import SegmentedCache.Objects

/-!
# Lists by recency of use

The objects of one cache, most recently used first, as a doubly linked list
whose nodes live in the slots of an array. A linked object's state names its
slot, so an object is found in its list without a search. Slots given up by
removed objects are reused, the latest first.

`toList` is the list that the links spell out. It follows at most as many links
as there are slots, so it is defined for every arrangement of links.
-/
namespace SegmentedCache

/-- A linked object with its neighbours toward the front and the back. -/
structure Recency.Node where
  object : CacheObject
  newer : Option Nat
  older : Option Nat
deriving DecidableEq, Repr, Inhabited

structure Recency where
  slots : Array (Option Recency.Node)
  free : List Nat
  newest : Option Nat
  oldest : Option Nat
  length : Nat
deriving DecidableEq, Repr

namespace Recency

def empty : Recency := ⟨#[], [], none, none, 0⟩

instance : Inhabited Recency := ⟨empty⟩

/-- The node in a slot, if the slot exists and is taken. -/
def node? (q : Recency) (k : Nat) : Option Node := (q.slots[k]?).join

/-- Changes the node in a slot; an empty slot stays empty. -/
def modifyNode (q : Recency) (k : Nat) (f : Node → Node) : Recency :=
  { q with slots := q.slots.modify k (Option.map f) }

/-- Whether the slot holds this very object. -/
def holds (q : Recency) (k : Nat) (o : CacheObject) : Bool :=
  match q.node? k with
  | some n => n.object == o
  | none => false

def front? (q : Recency) : Option CacheObject :=
  (q.newest.bind q.node?).map Node.object

def back? (q : Recency) : Option CacheObject :=
  (q.oldest.bind q.node?).map Node.object

/-- Makes `older` the older neighbour of the node at `at?`, or the newest node
where there is no node. -/
def setOlder (q : Recency) (at? older : Option Nat) : Recency :=
  match at? with
  | some k =>
    match q.node? k with
    | some _ => q.modifyNode k fun n => { n with older := older }
    | none => { q with newest := older }
  | none => { q with newest := older }

/-- Makes `newer` the newer neighbour of the node at `at?`, or the oldest node
where there is no node. -/
def setNewer (q : Recency) (at? newer : Option Nat) : Recency :=
  match at? with
  | some k =>
    match q.node? k with
    | some _ => q.modifyNode k fun n => { n with newer := newer }
    | none => { q with oldest := newer }
  | none => { q with oldest := newer }

/-- Puts a node into the latest slot given up, or into a new one. -/
def place (q : Recency) (n : Node) : Nat × Recency :=
  match q.free with
  | k :: rest => (k, { q with slots := q.slots.setIfInBounds k (some n), free := rest })
  | [] => (q.slots.size, { q with slots := q.slots.push (some n) })

/-- Links an object at the front and records its slot. -/
def pushFront (q : Recency) (s : Objects) (o : CacheObject) : Recency × Objects :=
  let first := q.newest
  let (k, q) := q.place ⟨o, none, first⟩
  let q := q.setNewer first (some k)
  ({ q with newest := some k, length := q.length + 1 }, s.setSlot o (some k))

/-- Joins the neighbours of the node in a slot; the node keeps its slot. -/
def detach (q : Recency) (k : Nat) : Option Recency :=
  (q.node? k).map fun n => (q.setOlder n.newer n.older).setNewer n.older n.newer

/-- Takes the object in a slot out of the list and clears its recorded slot.
Nothing changes if the slot is empty. -/
def remove (q : Recency) (s : Objects) (k : Nat) : Option CacheObject × Recency × Objects :=
  match q.node? k, q.detach k with
  | some n, some q =>
    (some n.object,
      { q with
        slots := q.slots.setIfInBounds k none
        free := k :: q.free
        length := q.length - 1 },
      s.setSlot n.object none)
  | _, _ => (none, q, s)

/-- Moves the object in a slot to the front; `none` if the slot is empty. The
front object stays where it is. -/
def moveToFront (q : Recency) (k : Nat) : Option Recency :=
  if q.newest = some k then some q
  else (q.detach k).map fun q =>
    let first := q.newest
    let q := q.modifyNode k fun n => { n with newer := none, older := first }
    { q.setNewer first (some k) with newest := some k }

/-- Takes the least recently used object out of the list. -/
def popBack (q : Recency) (s : Objects) : Option CacheObject × Recency × Objects :=
  match q.oldest with
  | some k => q.remove s k
  | none => (none, q, s)

/-- The objects met from a slot toward the back, within `fuel` links. -/
def follow (q : Recency) : Nat → Option Nat → List CacheObject
  | 0, _ => []
  | fuel + 1, cursor =>
    match cursor.bind q.node? with
    | some n => n.object :: q.follow fuel n.older
    | none => []

/-- The objects from the most to the least recently used. -/
def toList (q : Recency) : List CacheObject := q.follow q.slots.size q.newest

end Recency
end SegmentedCache
