import Mathlib
import SegmentedCache.Operation

/-!
# A plain list of recently used objects

The textbook account of a byte-bounded least-recently-used cache. It is a list of
entries, the most recently used first, and nothing else: no index, no slots, no
flags and no running total. Looking an id up searches the list. Admitting an
entry first takes out the one with its id, then keeps the longest prefix that
fits beside it, which is what `keepWithin` computes (`keepWithin_prefix`,
`cost_keepWithin_le` and `prefix_keepWithin`), then puts it in front.
-/
namespace SegmentedCache

/-- What can be seen of a cached object. -/
structure Entry where
  id : ObjectId
  size : Bytes
  expiry : Option Time
deriving DecidableEq, Repr

namespace Entry

def ofRequest (r : Request) : Entry := ⟨r.id, r.size, r.expiry⟩

def expiredAt (e : Entry) (time : Time) : Bool := e.expiry.any (· ≤ time)

end Entry

/-- The longest prefix whose costs add up to the budget at most. -/
def keepWithin (cost : Entry → Nat) : Nat → List Entry → List Entry
  | _, [] => []
  | budget, e :: rest =>
    if cost e ≤ budget then e :: keepWithin cost (budget - cost e) rest else []

section
variable {cost : Entry → Nat} {budget : Nat} {l kept : List Entry} {e : Entry}

theorem keepWithin_prefix : keepWithin cost budget l <+: l := by
  induction l generalizing budget with
  | nil => exact List.prefix_rfl
  | cons e l ih =>
    unfold keepWithin
    split
    · exact List.prefix_cons_iff.mpr (.inr ⟨_, rfl, ih⟩)
    · exact List.nil_prefix

theorem cost_keepWithin_le : ((keepWithin cost budget l).map cost).sum ≤ budget := by
  induction l generalizing budget with
  | nil => simp [keepWithin]
  | cons e l ih =>
    unfold keepWithin
    split
    next h =>
      have hrest := @ih (budget - cost e)
      rw [List.map_cons, List.sum_cons]
      omega
    next => simp

/-- No longer prefix fits. -/
theorem prefix_keepWithin (h : kept <+: l) (hle : (kept.map cost).sum ≤ budget) :
    kept <+: keepWithin cost budget l := by
  induction l generalizing budget kept with
  | nil => simpa [keepWithin] using h
  | cons e l ih =>
    rcases List.prefix_cons_iff.mp h with rfl | ⟨kept, rfl, hrest⟩
    · exact List.nil_prefix
    · rw [List.map_cons, List.sum_cons] at hle
      unfold keepWithin
      rw [if_pos (by omega)]
      exact List.prefix_cons_iff.mpr (.inr ⟨_, rfl, ih hrest (by omega)⟩)

theorem keepWithin_of_le (h : (l.map cost).sum ≤ budget) : keepWithin cost budget l = l :=
  keepWithin_prefix.eq_of_length_le (prefix_keepWithin List.prefix_rfl h).length_le

/-- Where all do not fit, the last makes no difference. -/
theorem keepWithin_concat (h : budget < ((l ++ [e]).map cost).sum) :
    keepWithin cost budget (l ++ [e]) = keepWithin cost budget l := by
  induction l generalizing budget with
  | nil =>
    simp only [List.nil_append, List.map_cons, List.map_nil, List.sum_cons, List.sum_nil,
      Nat.add_zero] at h
    simp [keepWithin, h]
  | cons p l ih =>
    rw [List.cons_append, List.map_cons, List.sum_cons] at h
    rw [List.cons_append, keepWithin, keepWithin]
    split
    next hp => rw [ih (by omega)]
    next => rfl

end

/-- A cache that is a list of its entries, most recently used first. -/
structure Plain where
  capacity : Nat
  overhead : Nat
  entries : List Entry := []
deriving DecidableEq, Repr

namespace Plain

/-- A charge stops at the largest word. -/
def charge (l : Plain) (size : Bytes) : Nat := min (size.toNat + l.overhead) Word.largest.toNat

def cost (l : Plain) (e : Entry) : Nat := l.charge e.size

/-- The charges of all entries together. -/
def bytes (l : Plain) : Nat := (l.entries.map l.cost).sum

def find? (l : Plain) (id : ObjectId) : Option Entry := l.entries.find? (·.id = id)

def erase (l : Plain) (id : ObjectId) : Plain :=
  { l with entries := l.entries.filter (·.id ≠ id) }

def touch (l : Plain) (e : Entry) : Plain := { l with entries := e :: (l.erase e.id).entries }

def enter (l : Plain) (r : Request) : Plain :=
  if l.charge r.size ≤ l.capacity then
    { l with
      entries := .ofRequest r ::
        keepWithin l.cost (l.capacity - l.charge r.size) (l.erase r.id).entries }
  else l

def check (l : Plain) (r : Request) (update : Bool) : Lookup × Plain :=
  match l.find? r.id with
  | none => (.miss, l)
  | some e =>
    if e.expiredAt r.time then (.expired, if update then l.erase r.id else l)
    else (.hit, if update then l.touch e else l)

def serve (l : Plain) (r : Request) : Lookup × Plain :=
  let (found, l) := l.check r true
  (found, if found = .hit then l else l.enter r)

inductive Answer
  | found (outcome : Lookup)
  | entry (e : Option Entry)
deriving DecidableEq, Repr

def perform (l : Plain) : Operation → Answer × Plain
  | .serve r =>
    let (found, l) := l.serve r
    (.found found, l)
  | .check r update =>
    let (found, l) := l.check r update
    (.found found, l)
  | .insert r =>
    (.entry (if l.charge r.size ≤ l.capacity then some (.ofRequest r) else none), l.enter r)
  | .evict => (.entry l.entries.getLast?, { l with entries := l.entries.dropLast })
  | .remove id => (.entry (l.find? id), l.erase id)

def performAll (l : Plain) : List Operation → List Answer × Plain
  | [] => ([], l)
  | op :: rest =>
    let (answer, l) := l.perform op
    let (answers, l) := l.performAll rest
    (answer :: answers, l)

variable {l : Plain} {id : ObjectId} {r : Request}

theorem erase_of_find? (h : l.find? id = none) : l.erase id = l := by
  unfold erase
  rw [List.filter_eq_self.mpr]
  intro e he
  simpa using List.find?_eq_none.mp h e he

theorem find?_eq_none_of_subset {l' : Plain} (h : l.find? id = none)
    (hsub : ∀ e ∈ l'.entries, e ∈ l.entries) : l'.find? id = none :=
  List.find?_eq_none.mpr fun e he => List.find?_eq_none.mp h e (hsub e he)

@[simp] theorem find?_erase (l : Plain) (id : ObjectId) : (l.erase id).find? id = none := by
  simp [find?, erase]

/-- What stays beside an entry for the request. -/
def kept (l : Plain) (r : Request) : List Entry :=
  keepWithin l.cost (l.capacity - l.charge r.size) (l.erase r.id).entries

theorem kept_prefix_erase : l.kept r <+: (l.erase r.id).entries := keepWithin_prefix

theorem enter_of_le (h : l.charge r.size ≤ l.capacity) :
    l.enter r = { l with entries := .ofRequest r :: l.kept r } := if_pos h

theorem perform_insert_of_le (h : l.charge r.size ≤ l.capacity) :
    l.perform (.insert r) =
      (.entry (some (.ofRequest r)), { l with entries := .ofRequest r :: l.kept r }) := by
  simp [perform, enter_of_le h, h]

/-- Entries may leave beforehand, but for those that stay. -/
theorem kept_of_fitting {rest : List Entry}
    (hid : ({ l with entries := rest } : Plain).find? r.id = none)
    (hfit : keepWithin l.cost (l.capacity - l.charge r.size) rest = l.kept r) :
    ({ l with entries := rest } : Plain).kept r = l.kept r := by
  rw [← hfit]
  unfold kept
  rw [erase_of_find? hid]
  rfl

@[simp] theorem capacity_serve (l : Plain) (r : Request) :
    (l.serve r).2.capacity = l.capacity := by
  unfold serve check touch enter erase
  grind

@[simp] theorem overhead_serve (l : Plain) (r : Request) :
    (l.serve r).2.overhead = l.overhead := by
  unfold serve check touch enter erase
  grind

theorem capacity_perform (l : Plain) (op : Operation) : (l.perform op).2.capacity = l.capacity := by
  cases op with
  | serve r => exact l.capacity_serve r
  | check r update =>
    unfold perform check touch erase
    grind
  | insert r =>
    unfold perform enter
    grind
  | evict => rfl
  | remove id => rfl

theorem overhead_perform (l : Plain) (op : Operation) : (l.perform op).2.overhead = l.overhead := by
  cases op with
  | serve r => exact l.overhead_serve r
  | check r update =>
    unfold perform check touch erase
    grind
  | insert r =>
    unfold perform enter
    grind
  | evict => rfl
  | remove id => rfl

end Plain
end SegmentedCache
