import SegmentedCache.Objects
import SegmentedCache.Index.Address

/-!
# The index of objects by id

A chained hash table. Every bucket's chain is a list of objects with different
ids; a new id goes to its head, and an object that replaces another of the same
id takes its place in the chain.

The table says which object stands for an id, not whether a cache has it: an
object that enters the table starts as not resident, and one that leaves it,
displaced or deleted, is not resident from then on.
-/
namespace SegmentedCache

abbrev Chain := List CacheObject

namespace Chain

def find? (c : Chain) (id : ObjectId) : Option CacheObject := List.find? (fun o => o.id == id) c

/-- Puts `o` in the place of the object with its id. -/
def replace (o : CacheObject) : Chain → Chain
  | [] => []
  | p :: rest => if p.id = o.id then o :: rest else p :: replace o rest

def erase (c : Chain) (id : ObjectId) : Chain := List.eraseP (fun o => o.id == id) c

end Chain

structure Index where
  /-- Fixed when the index is made, so an id always falls into the same bucket. -/
  hash : ObjectId → UInt64
  hashpower : Nat
  hashpower_le : hashpower ≤ maxHashpower
  stripes : StripePool (Vector Chain (1 <<< Address.bucketsPower hashpower))
    (Address.stripesPower hashpower)
  count : Nat

namespace Index

def empty (hash : ObjectId → UInt64) (hashpower : Nat) (h : hashpower ≤ maxHashpower) : Index :=
  ⟨hash, hashpower, h, .replicate _ (Vector.replicate _ []), 0⟩

instance : Inhabited Index := ⟨empty id 0 (by decide)⟩

/-- An empty index of `1 <<< hashpower` buckets. -/
def create (hash : ObjectId → UInt64) (hashpower : Nat) : Except BuildError Index :=
  if h : hashpower ≤ maxHashpower then .ok (empty hash hashpower h)
  else .error (.config (.hashpowerTooLarge hashpower))

def bucketCount (ix : Index) : Nat := 1 <<< ix.hashpower

def stripeCount (ix : Index) : Nat := 1 <<< Address.stripesPower ix.hashpower

def isEmpty (ix : Index) : Bool := ix.count == 0

/-- The bucket that an id falls into. -/
def bucketOf (ix : Index) (id : ObjectId) : UInt64 := Address.bucket ix.hashpower (ix.hash id)

/-- The chain of the bucket that a hash falls into. -/
def bucket (ix : Index) (hash : UInt64) : Chain :=
  (ix.stripes.get (Address.bucket ix.hashpower hash)).get
    ⟨_, Address.toNat_local_lt ix.hashpower_le hash⟩

/-- The place of an id's bucket within its stripe. -/
def localOf (ix : Index) (id : ObjectId) : Fin (1 <<< Address.bucketsPower ix.hashpower) :=
  ⟨(Address.localIndex ix.hashpower (ix.bucketOf id)).toNat,
    Address.toNat_local_lt ix.hashpower_le (ix.hash id)⟩

/-- The chain of the bucket that an id falls into. -/
def chainOf (ix : Index) (id : ObjectId) : Chain :=
  (ix.stripes.get (ix.bucketOf id)).get (ix.localOf id)

def setChainOf (ix : Index) (id : ObjectId) (c : Chain) : Index :=
  let stripe := ix.stripes.get (ix.bucketOf id)
  { ix with stripes := ix.stripes.set (ix.bucketOf id) (stripe.set (ix.localOf id) c) }

/-- Setting a chain changes the chain of its own bucket and no other. -/
theorem chainOf_setChainOf (ix : Index) (i j : ObjectId) (c : Chain) :
    (ix.setChainOf i c).chainOf j =
      if ix.bucketOf j = ix.bucketOf i then c else ix.chainOf j := by
  change ((ix.stripes.set (ix.bucketOf i)
    ((ix.stripes.get (ix.bucketOf i)).set (ix.localOf i) c)).get (ix.bucketOf j)).get
      (ix.localOf j) = _
  rw [StripePool.get_set]
  split
  next hs =>
    have hg : ix.stripes.get (ix.bucketOf i) = ix.stripes.get (ix.bucketOf j) := by
      unfold StripePool.get
      rw [hs]
    rw [get_set_vector]
    split
    next hl =>
      rw [if_pos (Address.eq_of_stripe_of_local ix.hashpower_le hs (Fin.mk.inj hl))]
    next hl =>
      have hb : ix.bucketOf j ≠ ix.bucketOf i := fun h => hl (Fin.ext (by
        change (Address.localIndex _ (ix.bucketOf j)).toNat = _
        rw [h]
        rfl))
      rw [if_neg hb, hg]
      rfl
  next hs =>
    rw [if_neg fun h => hs (by rw [h])]
    rfl

/-- Every bucket's chain, stripe by stripe. -/
def chains (ix : Index) : List Chain := ix.stripes.stripes.toList.flatMap Vector.toList

def find? (ix : Index) (id : ObjectId) : Option CacheObject := (ix.chainOf id).find? id

def contains (ix : Index) (id : ObjectId) : Bool := (ix.find? id).isSome

/-- Enters `o` under its id and returns the object it displaces. -/
def insert (ix : Index) (s : Objects) (o : CacheObject) : Option CacheObject × Index × Objects :=
  let s := s.setResident o false
  let chain := ix.chainOf o.id
  match chain.find? o.id with
  | some old => (some old, ix.setChainOf o.id (chain.replace o), s.setResident old false)
  | none => (none, { ix.setChainOf o.id (o :: chain) with count := ix.count + 1 }, s)

/-- Deletes the entry of an id and returns its object. -/
def delete (ix : Index) (s : Objects) (id : ObjectId) : Option CacheObject × Index × Objects :=
  let chain := ix.chainOf id
  match chain.find? id with
  | some o =>
    (some o, { ix.setChainOf id (chain.erase id) with count := ix.count - 1 },
      s.setResident o false)
  | none => (none, ix, s)

/-- Enters a new object for `r`. Answers it with the object it displaces. -/
def insertRequest (ix : Index) (s : Objects) (r : Request) :
    (CacheObject × Option CacheObject) × Index × Objects :=
  let (o, s) := s.create r.id r.size r.expiry
  let (old, ix, s) := ix.insert s o
  ((o, old), ix, s)

/-- Deletes the entry of the object's id, whether or not it is the object's own. -/
def deleteObject (ix : Index) (s : Objects) (o : CacheObject) : Index × Objects :=
  (ix.delete s o.id).2

/-- Deletes the entry of the object's id and answers whether there was one. -/
def tryDelete (ix : Index) (s : Objects) (o : CacheObject) : Bool × Index × Objects :=
  let (old, ix, s) := ix.delete s o.id
  (old.isSome, ix, s)

/-- Deletes `o` only if it is the very object entered under its id. -/
def deleteExact (ix : Index) (s : Objects) (o : CacheObject) : Bool × Index × Objects :=
  if ix.find? o.id = some o then
    let (_, ix, s) := ix.delete s o.id
    (true, ix, s)
  else (false, ix, s)

/-- The objects at the heads of the buckets that are not empty: those that a
draw of a random bucket can return. -/
def heads (ix : Index) : List CacheObject := ix.chains.filterMap List.head?

/-- Draws a bucket by each of the hashes until one is not empty, and returns the object at
its head. An empty index returns none. The outer option is for more draws to be needed. -/
def random? (ix : Index) : List UInt64 → Option (Option CacheObject)
  | [] => if ix.isEmpty then some none else none
  | hash :: draws =>
    if ix.isEmpty then some none
    else match (ix.bucket hash).head? with
      | some o => some (some o)
      | none => ix.random? draws

/-- The length of the longest chain. -/
def maxChainLength (ix : Index) : Nat := (ix.chains.map List.length).foldl max 0

def text (ix : Index) : String :=
  Text.record "ConcurrentIndex" [
    ("hashpower", toString ix.hashpower),
    ("stripes", toString ix.stripeCount),
    ("n_obj", toString ix.count)]

end Index
end SegmentedCache
