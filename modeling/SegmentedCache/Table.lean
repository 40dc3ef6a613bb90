/-!
# Tables with a default row

A table holds a row for every natural number; all but finitely many are the
default. It is backed by an array, so rows of small numbers are reached in
constant time, and it satisfies the laws of a total map without side
conditions on the row number.

The same law for vectors, whose positions are bounded by their type, stands at
the end.
-/
namespace SegmentedCache

structure Table (α : Type) where
  rows : Array α

namespace Table
variable {α : Type} [Inhabited α]

def empty : Table α := ⟨#[]⟩

instance : Inhabited (Table α) := ⟨empty⟩

/-- Rows from this number on have never been written. -/
def size (t : Table α) : Nat := t.rows.size

def get (t : Table α) (k : Nat) : α := t.rows[k]?.getD default

def set (t : Table α) (k : Nat) (a : α) : Table α :=
  if k < t.rows.size then ⟨t.rows.setIfInBounds k a⟩
  else ⟨(t.rows ++ Array.replicate (k - t.rows.size) default).push a⟩

/-- Writes the first row never written. -/
def push (t : Table α) (a : α) : Table α := ⟨t.rows.push a⟩

@[simp] theorem get_empty (k : Nat) : (empty : Table α).get k = default := by
  simp [get, empty]

@[simp] theorem get_push_self (t : Table α) (a : α) : (t.push a).get t.size = a := by
  simp [get, push, size]

theorem get_push_of_ne (t : Table α) {k : Nat} (a : α) (h : k ≠ t.size) :
    (t.push a).get k = t.get k := by
  unfold size at h
  simp [get, push, Array.getElem?_push, h]

omit [Inhabited α] in
@[simp] theorem size_push (t : Table α) (a : α) : (t.push a).size = t.size + 1 := by
  simp [size, push]

@[simp] theorem get_set_self (t : Table α) (k : Nat) (a : α) : (t.set k a).get k = a := by
  unfold get set
  split
  next h => simp [h]
  next h =>
    have hs : (t.rows ++ Array.replicate (k - t.rows.size) default).size = k := by
      simp only [Array.size_append, Array.size_replicate]
      omega
    rw [Array.getElem?_push, if_pos hs.symm]
    rfl

theorem get_set_of_ne (t : Table α) {j k : Nat} (a : α) (h : j ≠ k) :
    (t.set k a).get j = t.get j := by
  unfold get set
  split
  next hk => simp [Ne.symm h]
  next hk =>
    have hs : (t.rows ++ Array.replicate (k - t.rows.size) default).size = k := by
      simp only [Array.size_append, Array.size_replicate]
      omega
    rw [Array.getElem?_push, if_neg (by omega), Array.getElem?_append]
    split
    next => rfl
    next hj =>
      have ht : t.rows[j]? = none := Array.getElem?_eq_none (by omega)
      rw [ht, Array.getElem?_replicate]
      split <;> rfl

theorem get_set (t : Table α) (j k : Nat) (a : α) :
    (t.set k a).get j = if j = k then a else t.get j := by
  split
  next h => rw [h, get_set_self]
  next h => exact get_set_of_ne t a h

theorem size_set (t : Table α) (k : Nat) (a : α) : (t.set k a).size = max t.size (k + 1) := by
  unfold size set
  split
  next h =>
    simp only [Array.size_setIfInBounds]
    omega
  next h =>
    simp only [Array.size_push, Array.size_append, Array.size_replicate]
    omega

theorem size_le_size_set (t : Table α) (k : Nat) (a : α) : t.size ≤ (t.set k a).size := by
  rw [size_set]
  exact Nat.le_max_left ..

end Table

theorem get_set_vector {α : Type} {n : Nat} (v : Vector α n) (i j : Fin n) (a : α) :
    (v.set i a).get j = if j = i then a else v.get j := by
  change (v.set i a)[j.val] = if j = i then a else v[j.val]
  rw [Vector.getElem_set]
  simp only [Fin.ext_iff, eq_comm]

end SegmentedCache
