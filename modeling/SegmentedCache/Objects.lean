import SegmentedCache.Table
import SegmentedCache.Request

/-!
# Objects and their live state

Everyone who holds an object sees the same state of it: whether a cache has it
resident, and the slot of the recency list that links it. The state is kept in
one table, by serial number, so that writing it through one holder is seen by
all.

An object is issued if the table made it: its row has the very same object. The
serial number of a new object has not been issued before, so two issued objects
with one serial number are equal.
-/
namespace SegmentedCache

structure Objects.Row where
  object : CacheObject
  resident : Bool := false
  slot : Option Nat := none
deriving DecidableEq, Repr, Inhabited

abbrev Objects := Table Objects.Row

namespace Objects

def resident (s : Objects) (o : CacheObject) : Bool := (s.get o.serial).resident

def slot (s : Objects) (o : CacheObject) : Option Nat := (s.get o.serial).slot

def setResident (s : Objects) (o : CacheObject) (b : Bool) : Objects :=
  s.set o.serial { s.get o.serial with resident := b }

def setSlot (s : Objects) (o : CacheObject) (k : Option Nat) : Objects :=
  s.set o.serial { s.get o.serial with slot := k }

theorem resident_setResident (s : Objects) (o p : CacheObject) (b : Bool) :
    (s.setResident o b).resident p = if p.serial = o.serial then b else s.resident p := by
  unfold resident setResident
  rw [Table.get_set]
  split <;> rfl

@[simp] theorem slot_setResident (s : Objects) (o p : CacheObject) (b : Bool) :
    (s.setResident o b).slot p = s.slot p := by
  unfold slot setResident
  rw [Table.get_set]
  split
  next h => rw [h]
  next => rfl

theorem slot_setSlot (s : Objects) (o p : CacheObject) (k : Option Nat) :
    (s.setSlot o k).slot p = if p.serial = o.serial then k else s.slot p := by
  unfold slot setSlot
  rw [Table.get_set]
  split <;> rfl

@[simp] theorem resident_setSlot (s : Objects) (o p : CacheObject) (k : Option Nat) :
    (s.setSlot o k).resident p = s.resident p := by
  unfold resident setSlot
  rw [Table.get_set]
  split
  next h => rw [h]
  next => rfl

/-- Makes a new object. No cache has it and no list links it. -/
def create (s : Objects) (id : ObjectId) (size : Bytes) (expiry : Option Time) :
    CacheObject × Objects :=
  let o : CacheObject := ⟨s.size, id, size, expiry⟩
  (o, s.push { object := o })

/-- Whether the object was made by this table. -/
def Issued (s : Objects) (o : CacheObject) : Prop :=
  o.serial < s.size ∧ (s.get o.serial).object = o

instance (s : Objects) (o : CacheObject) : Decidable (s.Issued o) :=
  inferInstanceAs (Decidable (_ ∧ _))

theorem Issued.eq_of_serial_eq {s : Objects} {o p : CacheObject} (ho : s.Issued o)
    (hp : s.Issued p) (h : o.serial = p.serial) : o = p := by
  rw [← ho.2, ← hp.2, h]

theorem issued_create (s : Objects) (id : ObjectId) (size : Bytes) (expiry : Option Time) :
    (s.create id size expiry).2.Issued (s.create id size expiry).1 := by
  simp [create, Issued]

theorem not_issued_create (s : Objects) (id : ObjectId) (size : Bytes) (expiry : Option Time) :
    ¬ s.Issued (s.create id size expiry).1 := by
  simp [create, Issued]

theorem Issued.create {s : Objects} {o : CacheObject} (h : s.Issued o) (id : ObjectId)
    (size : Bytes) (expiry : Option Time) : (s.create id size expiry).2.Issued o := by
  unfold Issued Objects.create at *
  rw [Table.size_push, Table.get_push_of_ne _ _ (Nat.ne_of_lt h.1)]
  exact ⟨Nat.lt_succ_of_lt h.1, h.2⟩

theorem Issued.setResident {s : Objects} {o : CacheObject} (h : s.Issued o) (p : CacheObject)
    (b : Bool) : (s.setResident p b).Issued o := by
  unfold Issued Objects.setResident at *
  rw [Table.size_set, Table.get_set]
  refine ⟨Nat.lt_of_lt_of_le h.1 (Nat.le_max_left ..), ?_⟩
  split
  next e => rw [← e, h.2]
  next => exact h.2

theorem Issued.setSlot {s : Objects} {o : CacheObject} (h : s.Issued o) (p : CacheObject)
    (k : Option Nat) : (s.setSlot p k).Issued o := by
  unfold Issued Objects.setSlot at *
  rw [Table.size_set, Table.get_set]
  refine ⟨Nat.lt_of_lt_of_le h.1 (Nat.le_max_left ..), ?_⟩
  split
  next e => rw [← e, h.2]
  next => exact h.2

end Objects
end SegmentedCache
